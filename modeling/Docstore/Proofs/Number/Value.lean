import Docstore.Proofs.Number.Rounding
import Mathlib.Algebra.Order.Field.Rat
import Mathlib.Tactic.NormNum
import Mathlib.Tactic.Positivity

/-!
# The rational number that a double is

* `Finite.value` : sign, mantissa and shift as a rational number;
* `Double.value_of_ofBits` : it is the number that the fields of a 64-bit word denote;
* `Finite.toInt?_eq_some_iff` : the integer of a double is its value, where that is whole;
* `Double.two_pow_le_of_toInt?_ofInt` : rounding an integer to a double does not carry it below a
  power of two;
* `Double.compare?_bounds_of_toInt?` : the doubles of the least and the largest integer of 64 bits
  bound those integers exactly, though the largest one is no double.
-/

namespace Docstore

namespace Finite

/-- The number that the bits of a double denote. -/
def value (x : Finite) : ℚ :=
  (if x.negative then -1 else 1) * x.mantissa * 2 ^ ((x.shift : ℤ) - 1074)

theorem cast_unitsInOne : (unitsInOne : ℚ) = 2 ^ (1074 : ℤ) := by
  have hshift : ∀ k : ℕ, ((1 <<< k : ℕ) : ℚ) = 2 ^ (k : ℤ) := fun k => by
    rw [Nat.shiftLeft_eq, one_mul, Nat.cast_pow, zpow_natCast]
    rfl
  exact hshift 1074

theorem cast_magnitude (x : Finite) : (x.magnitude : ℚ) = x.mantissa * 2 ^ (x.shift : ℤ) := by
  rw [magnitude, Nat.shiftLeft_eq, Nat.cast_mul, Nat.cast_pow, zpow_natCast]
  rfl

theorem value_mul_unitsInOne (x : Finite) : x.value * unitsInOne = x.units := by
  have hpower : (2 : ℚ) ^ ((x.shift : ℤ) - 1074) * 2 ^ (1074 : ℤ) = 2 ^ (x.shift : ℤ) := by
    rw [← zpow_add₀ (by norm_num), sub_add_cancel]
  rw [value, cast_unitsInOne, mul_assoc, hpower, mul_assoc, ← cast_magnitude, units]
  split <;> simp

/-- A double has the value of an integer when it has that many units. -/
theorem value_eq_intCast_iff {x : Finite} {k : ℤ} :
    x.value = k ↔ x.units = k * (unitsInOne : ℤ) := by
  have hpos : (unitsInOne : ℚ) ≠ 0 := Nat.cast_ne_zero.2 (Nat.ne_of_gt Double.unitsInOne_pos)
  rw [← mul_left_inj' hpos, value_mul_unitsInOne]
  exact_mod_cast Iff.rfl

/-- The integer of a double is its value, where that is whole. -/
theorem toInt?_eq_some_iff {x : Finite} {k : ℤ} : x.toInt? = some k ↔ x.value = k := by
  have hpos := Double.unitsInOne_pos
  rw [value_eq_intCast_iff, toInt?, units]
  generalize unitsInOne = one at hpos ⊢
  generalize x.magnitude = m
  have hsplit := Nat.div_add_mod m one
  by_cases hwhole : m % one = 0
  · rw [hwhole, add_zero] at hsplit
    have hm : (m : ℤ) = (m / one : ℕ) * (one : ℤ) := by
      rw [← Nat.cast_mul, mul_comm, hsplit]
    have hone : (one : ℤ) ≠ 0 := by omega
    rw [if_pos hwhole, Option.some_inj]
    split
    · rw [hm, ← neg_mul, mul_left_inj' hone]
    · rw [hm, mul_left_inj' hone]
  · rw [if_neg hwhole]
    refine iff_of_false (by simp) fun heq => hwhole ?_
    have hdvd : (one : ℤ) ∣ (m : ℤ) := by
      split at heq
      · exact Int.dvd_neg.1 ⟨k, heq.trans (mul_comm _ _)⟩
      · exact ⟨k, heq.trans (mul_comm _ _)⟩
    exact Nat.mod_eq_zero_of_dvd (Int.natCast_dvd_natCast.1 hdvd)

theorem truncate_of_toInt? {x : Finite} {k : ℤ} (h : x.toInt? = some k) : x.truncate = k := by
  rw [toInt?] at h
  split at h
  · exact Option.some.inj h
  · cases h

end Finite

namespace Double

/-- The value of a word: 52 bits, behind a one unless the field of the exponent is zero, times the
power of two of that field, which is biased by 1075. -/
theorem value_of_ofBits {w : UInt64} {x : Finite} (h : ofBits w = .finite x) :
    let exponent : ℕ := w.toNat / 2 ^ 52 % 2 ^ 11
    let fraction : ℕ := w.toNat % 2 ^ 52
    x.value = (if 2 ^ 63 ≤ w.toNat then -1 else 1) *
      if exponent = 0 then (fraction : ℚ) * 2 ^ (-1074 : ℤ)
      else ((2 ^ 52 + fraction : ℕ) : ℚ) * 2 ^ ((exponent : ℤ) - 1075) := by
  intro exponent fraction
  rw [ofBits] at h
  split at h
  · next hzero =>
    obtain rfl := Double.finite.inj h
    have hexponent : exponent = 0 := hzero
    rw [if_pos hexponent, Finite.value, ← mul_assoc]
    simp only [decide_eq_true_eq]
    rfl
  · next hnormal =>
    split at h
    · split at h <;> cases h
    · obtain rfl := Double.finite.inj h
      have hexponent : exponent ≠ 0 := hnormal
      have hshift : (exponent : ℤ) - 1075 = ((exponent - 1 : ℕ) : ℤ) - 1074 := by omega
      rw [if_neg hexponent, Finite.value, hshift, ← mul_assoc]
      simp only [decide_eq_true_eq]
      rfl

/-- Of the parts of a number the magnitude is made. -/
theorem magnitude_of_ofParts {negative : Bool} {m s : Nat} {x : Finite}
    (h : ofParts negative m s = .finite x) : x.negative = negative ∧ x.magnitude = m <<< s := by
  rw [ofParts, Finite.ofParts?] at h
  split at h
  · next y hy =>
    obtain rfl := Double.finite.inj h
    split at hy
    · obtain rfl := Option.some.inj hy
      exact ⟨rfl, rfl⟩
    · cases hy
  · cases h

theorem two_pow_log2_units {n : Nat} (hn : n ≠ 0) :
    2 ^ (n * Finite.unitsInOne).log2 = 2 ^ n.log2 * Finite.unitsInOne := by
  rw [unitsInOne_mul, unitsInOne_mul]
  generalize 1074 = places
  rw [log2_shiftLeft hn, Nat.shiftLeft_eq, pow_add]

/-- Rounding does not carry a number below the power of two of its first bit. -/
theorem two_pow_log2_le_magnitude {negative : Bool} {n : Nat} {x : Finite} (hn : n ≠ 0)
    (h : ofRatio negative n 1 = .finite x) :
    x.negative = negative ∧ 2 ^ n.log2 * Finite.unitsInOne ≤ x.magnitude := by
  rw [← two_pow_log2_units hn]
  have hunits : n * Finite.unitsInOne ≠ 0 := Nat.mul_ne_zero hn (Nat.ne_of_gt unitsInOne_pos)
  rw [ofRatio] at h
  generalize n * Finite.unitsInOne = units at h hunits ⊢
  rw [Nat.div_one] at h
  have hbit := Nat.log2_self_le hunits
  generalize units.log2 = bit at h hbit ⊢
  generalize hshift : bit - 52 = shift at h
  split at h
  · obtain ⟨hnegative, hmagnitude⟩ := magnitude_of_ofParts h
    refine ⟨hnegative, ?_⟩
    have hquotient : 2 ^ (bit - shift) ≤ units / (1 <<< shift) := by
      rw [Nat.shiftLeft_eq, one_mul, Nat.le_div_iff_mul_le (Nat.two_pow_pos shift), ← pow_add,
        Nat.sub_add_cancel (by omega)]
      exact hbit
    calc 2 ^ bit = 2 ^ (bit - shift) * 2 ^ shift := by
          rw [← pow_add, Nat.sub_add_cancel (by omega)]
      _ ≤ roundHalfEven units (1 <<< shift) * 2 ^ shift :=
          Nat.mul_le_mul_right _ (hquotient.trans (le_roundHalfEven _ _))
      _ = x.magnitude := (hmagnitude.trans (Nat.shiftLeft_eq _ _)).symm
  · obtain ⟨hnegative, hmagnitude⟩ := magnitude_of_ofParts h
    refine ⟨hnegative, ?_⟩
    calc 2 ^ bit ≤ 2 ^ (52 + (shift + 1)) := Nat.pow_le_pow_right (by decide) (by omega)
      _ = x.magnitude := by rw [hmagnitude, Nat.shiftLeft_eq, pow_add]; rfl

/-- Rounding an integer to a double does not carry it below a power of two. -/
theorem two_pow_le_of_toInt?_ofInt {n v : ℤ} {k : ℕ} (h : 2 ^ k ≤ n)
    (hv : (ofInt n).toInt? = some v) : 2 ^ k ≤ v := by
  obtain ⟨m, rfl⟩ := Int.eq_ofNat_of_zero_le (le_trans (by positivity) h)
  have hm : 2 ^ k ≤ m := by exact_mod_cast h
  have hne : m ≠ 0 := Nat.ne_of_gt (lt_of_lt_of_le (Nat.two_pow_pos k) hm)
  rw [ofInt, Int.natAbs_natCast, decide_eq_false (by omega)] at hv
  cases hx : ofRatio false m 1 with
  | finite x =>
    rw [hx] at hv
    obtain ⟨hnegative, hmagnitude⟩ := two_pow_log2_le_magnitude hne hx
    have hvalue := Finite.value_eq_intCast_iff.1 (Finite.toInt?_eq_some_iff.1 hv)
    have hpos := unitsInOne_pos
    have hpower : 2 ^ k * Finite.unitsInOne ≤ x.magnitude :=
      (Nat.mul_le_mul_right _ (Nat.pow_le_pow_right (by decide) ((Nat.le_log2 hne).2 hm))).trans
        hmagnitude
    rw [Finite.units, hnegative, if_neg Bool.false_ne_true] at hvalue
    have hle : 2 ^ k * (Finite.unitsInOne : ℤ) ≤ v * (Finite.unitsInOne : ℤ) := by
      rw [← hvalue]
      exact_mod_cast hpower
    exact le_of_mul_le_mul_right hle (by exact_mod_cast hpos)
  | infinity negative =>
    rw [hx] at hv
    cases hv
  | nan negative =>
    rw [hx] at hv
    cases hv

/-! ### The range of 64 signed bits -/

/-- The least integer is a double. -/
theorem ofInt_lowest :
    ∃ low : Finite, ofInt (-0x8000000000000000) = .finite low ∧
      low.units = -0x8000000000000000 * Finite.unitsInOne :=
  ⟨⟨true, 0x10000000000000, 1085, by decide, by decide, .inl (by decide)⟩, by decide +kernel,
    by decide +kernel⟩

/-- The largest integer is rounded up to the next one. -/
theorem ofInt_highest :
    ∃ high : Finite, ofInt 0x7FFFFFFFFFFFFFFF = .finite high ∧
      high.units = 0x8000000000000000 * Finite.unitsInOne :=
  ⟨⟨false, 0x10000000000000, 1085, by decide, by decide, .inl (by decide)⟩, by decide +kernel,
    by decide +kernel⟩

/-- Compared with the doubles of the least and the largest integer, a whole number is in the range
exactly when it is an integer of 64 bits. -/
theorem compare?_bounds_of_toInt? {x : Double} {k : ℤ} (h : x.toInt? = some k) :
    ((x.compare? (ofInt (-0x8000000000000000))).any Ordering.isGE ↔ -0x8000000000000000 ≤ k) ∧
    ((x.compare? (ofInt 0x7FFFFFFFFFFFFFFF)).any Ordering.isLT ↔ k < 0x8000000000000000) := by
  cases x with
  | finite x =>
    obtain ⟨low, hlow, hlowUnits⟩ := ofInt_lowest
    obtain ⟨high, hhigh, hhighUnits⟩ := ofInt_highest
    have hunits := Finite.value_eq_intCast_iff.1 (Finite.toInt?_eq_some_iff.1 h)
    have hpos : 0 < (Finite.unitsInOne : ℤ) := Int.natCast_pos.2 unitsInOne_pos
    simp only [hlow, hhigh, compare?, hunits, hlowUnits, hhighUnits, compare_mul_pos hpos,
      Option.any_some, Int.isGE_compare, Ordering.isLT_iff_eq_lt, Int.compare_eq_lt, true_and]
  | _ => cases h

/-- Nothing is clamped within the range. -/
theorem clamped_of_toInt? {x : Double} {k : ℤ} (h : x.toInt? = some k)
    (hlow : -0x8000000000000000 ≤ k) (hhigh : k < 0x8000000000000000) :
    x.clamped = Int64.ofInt k := by
  cases x with
  | finite x =>
    have hbounds : max (-0x8000000000000000) (min k 0x7FFFFFFFFFFFFFFF) = k := by omega
    rw [clamped, Finite.truncate_of_toInt? h, hbounds]
  | _ => cases h

end Double

end Docstore
