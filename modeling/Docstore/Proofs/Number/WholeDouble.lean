import Docstore.Number.Double

/-!
# Integers as doubles

Integers of at most 53 bits are doubles themselves, so that comparing them as doubles is
comparing them.

* `Double.units_ofInt` : the double of an integer has its value, up to `2 ^ 53`;
* `Double.isNan_ofInt` : no integer of any size is not-a-number;
* `Double.compare?_ofInt` : integers up to `2 ^ 53` have the order of their doubles.
-/

namespace Docstore

namespace Double

theorem log2_shiftLeft {n : Nat} (hn : n ≠ 0) (k : Nat) : (n <<< k).log2 = n.log2 + k := by
  induction k with
  | zero => simp
  | succ k ih =>
    have hne : n <<< k ≠ 0 := by
      rw [Nat.shiftLeft_eq]
      exact Nat.mul_ne_zero hn (Nat.ne_of_gt (Nat.two_pow_pos k))
    rw [Nat.shiftLeft_succ, Nat.log2_two_mul hne, ih]
    omega

theorem roundHalfEven_shiftLeft (q k : Nat) : roundHalfEven (q <<< k) (1 <<< k) = q := by
  have hpos : 0 < 1 <<< k := by
    rw [Nat.shiftLeft_eq, Nat.one_mul]
    exact Nat.two_pow_pos k
  have hmul : q <<< k = q * (1 <<< k) := by simp [Nat.shiftLeft_eq]
  simp [roundHalfEven, hmul, Nat.mul_div_cancel _ hpos, hpos]

/-- A mantissa of exactly 53 bits. -/
theorem normal_shiftLeft {n : Nat} (hn : n ≠ 0) (hk : n.log2 ≤ 52) :
    0x10000000000000 ≤ n <<< (52 - n.log2) ∧ n <<< (52 - n.log2) < 0x20000000000000 := by
  have hne : n <<< (52 - n.log2) ≠ 0 := by
    rw [Nat.shiftLeft_eq]
    exact Nat.mul_ne_zero hn (Nat.ne_of_gt (Nat.two_pow_pos _))
  have hlog : (n <<< (52 - n.log2)).log2 = 52 := by
    rw [log2_shiftLeft hn]
    omega
  have h := (Nat.log2_eq_iff hne).1 hlog
  simpa using h

/-- Shifting to 53 bits and up again is shifting at once. -/
theorem shiftLeft_normal {n t : Nat} (hk : n.log2 ≤ 52) (ht : 52 ≤ t) :
    n <<< t = (n <<< (52 - n.log2)) <<< (n.log2 + t - 52) := by
  rw [← Nat.shiftLeft_add]
  congr 1
  omega

theorem unitsInOne_pos : 0 < Finite.unitsInOne := by decide

theorem unitsInOne_mul (n : Nat) : n * Finite.unitsInOne = n <<< 1074 := by
  have h : ∀ k, n * (1 <<< k) = n <<< k := fun k => by simp [Nat.shiftLeft_eq]
  exact h 1074

theorem ofParts_normal (negative : Bool) {m s : Nat} (hm : m < 0x20000000000000)
    (hs : s ≤ 2045) (hn : 0x10000000000000 ≤ m ∨ s = 0) :
    ofParts negative m s = .finite ⟨negative, m, s, hm, hs, hn⟩ := by
  simp only [ofParts, Finite.ofParts?]
  rw [dif_pos ⟨hm, hs, hn⟩]

theorem ofRatio_one_of_log2_le (negative : Bool) {n : Nat} (hn : n ≠ 0) (hk : n.log2 ≤ 52) :
    ∃ x : Finite, ofRatio negative n 1 = .finite x ∧ x.negative = negative ∧
      x.magnitude = n * Finite.unitsInOne := by
  have hunits := unitsInOne_mul n
  generalize ht : 1074 = t at hunits
  obtain ⟨hlow, hhigh⟩ := normal_shiftLeft hn hk
  have hshift : (n <<< t).log2 - 52 = n.log2 + t - 52 := by rw [log2_shiftLeft hn]
  have hround : roundHalfEven (n <<< t) (1 <<< (n.log2 + t - 52)) = n <<< (52 - n.log2) := by
    rw [shiftLeft_normal hk (by omega), roundHalfEven_shiftLeft]
  have hle : n.log2 + t - 52 ≤ 2045 := by omega
  refine ⟨⟨negative, n <<< (52 - n.log2), n.log2 + t - 52, hhigh, hle, .inl hlow⟩, ?_, rfl, ?_⟩
  · simp only [ofRatio, hunits, Nat.div_one, hshift, hround]
    rw [if_pos hhigh, ofParts_normal]
  · rw [Finite.magnitude, hunits]
    exact (shiftLeft_normal hk (by omega)).symm

/-- Whole numbers up to `2 ^ 53` are doubles themselves. -/
theorem ofRatio_one (negative : Bool) {n : Nat} (hn : n ≤ 0x20000000000000) :
    ∃ x : Finite, ofRatio negative n 1 = .finite x ∧ x.negative = negative ∧
      x.magnitude = n * Finite.unitsInOne := by
  by_cases h0 : n = 0
  · subst h0
    exact ⟨.zero negative, by cases negative <;> decide, rfl, by cases negative <;> decide⟩
  by_cases hk : n.log2 ≤ 52
  · exact ofRatio_one_of_log2_le negative h0 hk
  · have htop : n = 0x20000000000000 := by
      have := (Nat.le_log2 h0).1 (show 53 ≤ n.log2 by omega)
      omega
    subst htop
    exact ⟨⟨negative, 0x10000000000000, 1075, by decide, by decide, .inl (by decide)⟩,
      by cases negative <;> decide +kernel, rfl, by cases negative <;> decide +kernel⟩

/-- The integer is one that a mantissa of 53 bits holds. -/
def HoldsInt (n : Int) : Prop := n.natAbs ≤ 0x20000000000000

/-- The double of an integer has its value. -/
theorem units_ofInt {n : Int} (hn : HoldsInt n) :
    ∃ x : Finite, ofInt n = .finite x ∧ x.units = n * Finite.unitsInOne := by
  obtain ⟨x, hx, hneg, hmag⟩ := ofRatio_one (decide (n < 0)) hn
  refine ⟨x, hx, ?_⟩
  rw [Finite.units, hneg, hmag, Int.natCast_mul]
  by_cases h : n < 0
  · rw [if_pos (by simpa using h), ← Int.neg_mul]
    congr 1
    omega
  · rw [if_neg (by simpa using h)]
    congr 1
    omega

theorem compare_mul_pos {a b c : Int} (hc : 0 < c) : compare (a * c) (b * c) = compare a b := by
  simp only [compare, compareOfLessAndEq, Int.mul_lt_mul_right hc]
  by_cases h : a = b
  · simp [h]
  · have hne : a * c ≠ b * c := fun e => h (Int.eq_of_mul_eq_mul_right (by omega) e)
    simp [h, hne]

theorem isNan_ofParts (negative : Bool) (m s : Nat) : (ofParts negative m s).isNan = false := by
  unfold ofParts
  split <;> rfl

/-- The double of an integer is a number, if only an infinity. -/
theorem isNan_ofInt (n : Int) : (ofInt n).isNan = false := by
  unfold ofInt ofRatio
  dsimp only
  split <;> exact isNan_ofParts _ _ _

/-- Integers of at most 53 bits have the order of their doubles. -/
theorem compare?_ofInt {n m : Int} (hn : HoldsInt n) (hm : HoldsInt m) :
    (ofInt n).compare? (ofInt m) = some (compare n m) := by
  obtain ⟨x, hx, hxu⟩ := units_ofInt hn
  obtain ⟨y, hy, hyu⟩ := units_ofInt hm
  rw [hx, hy, compare?, hxu, hyu, compare_mul_pos (Int.natCast_pos.2 unitsInOne_pos)]

end Double

end Docstore
