import Docstore.Number.PowerOfTen
import Docstore.Proofs.Number.WholeDouble

/-!
# Fractions that round to finite doubles

* `Finite.limit` : half a step beyond the largest number, in units of the format;
* `Double.exists_ofRatio_eq` : below it every fraction rounds to a finite double;
* `Double.exists_ofDecimal_eq` : and so does every decimal.
-/

namespace Docstore

/-- Half a step beyond the largest number: the first value that rounds to an infinity. -/
def Finite.limit : Nat := 0x3FFFFFFFFFFFFF <<< 2044

namespace Double

theorem le_roundHalfEven (num den : Nat) : num / den ≤ roundHalfEven num den := by
  unfold roundHalfEven
  dsimp only
  split <;> omega

/-- Rounding goes up only from the middle on. -/
theorem roundHalfEven_le (num den : Nat) :
    roundHalfEven num den ≤ num / den ∨
      (roundHalfEven num den = num / den + 1 ∧ den ≤ 2 * (num % den)) := by
  unfold roundHalfEven
  dsimp only
  split <;> omega

theorem exists_ofParts_eq (negative : Bool) {m s : Nat} (hm : m < 0x20000000000000) (hs : s ≤ 2045)
    (hn : 0x10000000000000 ≤ m ∨ s = 0) : ∃ x, ofParts negative m s = .finite x :=
  ⟨_, ofParts_normal negative hm hs hn⟩

theorem shiftLeft_mul (n m k : Nat) : n <<< k * m = n * (m <<< k) := by
  rw [Nat.shiftLeft_eq, Nat.shiftLeft_eq, Nat.mul_assoc, Nat.mul_comm m]

theorem log2_le_of_lt_limit {n : Nat} (h : n < Finite.limit) : n.log2 ≤ 2097 := by
  have hlimit : Finite.limit < 2 ^ 2098 := by decide +kernel
  by_cases hzero : n = 0
  · simp [hzero]
  · have hlog := (Nat.log2_lt hzero).2 (Nat.lt_trans h hlimit)
    omega

/-- The leading bits of a number: 53 of them, or all when it has no more. -/
theorem shiftRight_log2 (n : Nat) :
    n >>> (n.log2 - 52) < 0x20000000000000 ∧
      (0x10000000000000 ≤ n >>> (n.log2 - 52) ∨ n.log2 - 52 = 0) := by
  generalize hshift : n.log2 - 52 = shift
  rw [Nat.shiftRight_eq_div_pow]
  constructor
  · rw [Nat.div_lt_iff_lt_mul (Nat.two_pow_pos shift)]
    calc n < 2 ^ (n.log2 + 1) := Nat.lt_log2_self
      _ ≤ 2 ^ (53 + shift) := Nat.pow_le_pow_right (by decide) (by omega)
      _ = 0x20000000000000 * 2 ^ shift := by rw [Nat.pow_add]
  · by_cases hzero : shift = 0
    · exact .inr hzero
    · refine .inl ?_
      have hne : n ≠ 0 := by
        rintro rfl
        simp at hshift
        omega
      rw [Nat.le_div_iff_mul_le (Nat.two_pow_pos shift)]
      calc 0x10000000000000 * 2 ^ shift = 2 ^ (52 + shift) := by rw [Nat.pow_add]
        _ ≤ 2 ^ n.log2 := Nat.pow_le_pow_right (by decide) (by omega)
        _ ≤ n := Nat.log2_self_le hne

/-- At the largest shift rounding up to a 54th bit would need a value from the limit on. -/
theorem roundHalfEven_lt_of_lt_limit {units den : Nat} (h : units < Finite.limit * den) :
    roundHalfEven units (den <<< 2045) < 0x20000000000000 := by
  have hgap : den <<< 2045 = 2 * (den <<< 2044) := Nat.shiftLeft_succ den 2044
  rw [Finite.limit, shiftLeft_mul] at h
  rw [hgap]
  generalize den <<< 2044 = half at h ⊢
  have hsplit := Nat.div_add_mod units (2 * half)
  have hbits : units / (2 * half) < 0x20000000000000 :=
    (Nat.div_lt_iff_lt_mul (by omega)).2 (by omega)
  obtain hround | ⟨hround, hmiddle⟩ := roundHalfEven_le units (2 * half)
  · omega
  · rw [hround]
    refine Nat.lt_of_le_of_ne hbits fun hfull => ?_
    rw [show units / (2 * half) = 0x1FFFFFFFFFFFFF by omega] at hsplit
    omega

/-- A fraction below the limit rounds to a finite double. -/
theorem exists_ofRatio_eq (negative : Bool) {num den : Nat}
    (h : num * Finite.unitsInOne < Finite.limit * den) :
    ∃ x, ofRatio negative num den = .finite x := by
  have hden : 0 < den := Nat.pos_of_ne_zero fun hzero => by simp [hzero] at h
  rw [ofRatio]
  generalize num * Finite.unitsInOne = units at h ⊢
  have hlog := log2_le_of_lt_limit ((Nat.div_lt_iff_lt_mul hden).2 h)
  have hshift : (units / den).log2 - 52 ≤ 2045 := by omega
  obtain ⟨hbits, hnormal⟩ := shiftRight_log2 (units / den)
  generalize (units / den).log2 - 52 = shift at hshift hbits hnormal ⊢
  have hquotient : units / (den <<< shift) = (units / den) >>> shift := by
    rw [Nat.shiftLeft_eq, Nat.shiftRight_eq_div_pow, Nat.div_div_eq_div_mul]
  have hlow := le_roundHalfEven units (den <<< shift)
  rw [hquotient] at hlow
  by_cases hmantissa : roundHalfEven units (den <<< shift) < 0x20000000000000
  · simp only [if_pos hmantissa]
    exact exists_ofParts_eq negative hmantissa hshift (by omega)
  · simp only [if_neg hmantissa]
    refine exists_ofParts_eq negative (by decide) (Nat.lt_of_le_of_ne hshift ?_)
      (.inl (by decide))
    rintro rfl
    exact hmantissa (roundHalfEven_lt_of_lt_limit h)

/-- A decimal below the limit is read as a finite double. -/
theorem exists_ofDecimal_eq (negative : Bool) {digits places : Nat}
    (h : digits * Finite.unitsInOne < Finite.limit * powerOfTen places) :
    ∃ x, ofDecimal negative digits (-(places : Int)) = .finite x := by
  unfold ofDecimal
  split
  · exact ⟨_, rfl⟩
  · rw [if_neg (by omega)]
    split
    · exact ⟨_, rfl⟩
    · split
      · have hwhole : places = 0 := by omega
        subst hwhole
        exact exists_ofRatio_eq negative (by simpa [powerOfTen_zero] using h)
      · refine exists_ofRatio_eq negative ?_
        rwa [show (- -(places : Int)).toNat = places by omega]

end Double

end Docstore
