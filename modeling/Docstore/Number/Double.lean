import Docstore.Number.PowerOfTen

/-!
# Doubles

The numbers of the binary64 format, in exact integer arithmetic.

* `Finite` : a sign, a mantissa below `2 ^ 53` and a shift; its value is a whole number of
  units of `2 ^ (-1074)` (`Finite.units`);
* `Double` : a finite number, an infinity, or not a number;
* `Double.ofBits`, `Double.toBits` : the 64-bit words of the format;
* `Double.compare?` : the order of values, in which not-a-number has no place;
* `Double.ofRatio` : the nearest double of a fraction, a tie going to the even mantissa;
* `Double.clamped` : the integer of 64 bits that a number is cut to.

A double is read back from its word (`Double.ofBits_toBits`). The order is antisymmetric
(`Double.compare?_swap`) and every number but not-a-number equals itself in it
(`Double.compare?_self`).
-/

namespace Docstore

/-- A finite number of the format: `± mantissa * 2 ^ shift` units of `2 ^ (-1074)`. -/
structure Finite where
  /-- The sign bit, also of a zero. -/
  negative : Bool
  /-- The significant bits. -/
  mantissa : Nat
  /-- How far the mantissa stands above the least unit. -/
  shift : Nat
  mantissa_lt : mantissa < 0x20000000000000
  shift_le : shift ≤ 2045
  /-- Only numbers at the lowest shift may have fewer than 53 bits. -/
  normal : 0x10000000000000 ≤ mantissa ∨ shift = 0
deriving DecidableEq

namespace Finite

/-- The absolute value, in units of `2 ^ (-1074)`. -/
def magnitude (x : Finite) : Nat := x.mantissa <<< x.shift

/-- The value, in units of `2 ^ (-1074)`. -/
def units (x : Finite) : Int := if x.negative then -(x.magnitude : Int) else x.magnitude

/-- The number of units in one. -/
def unitsInOne : Nat := 1 <<< 1074

/-- The value is zero, of either sign. -/
def isZero (x : Finite) : Bool := x.mantissa == 0

/-- The integer that a whole number is. -/
def toInt? (x : Finite) : Option Int :=
  if x.magnitude % unitsInOne = 0 then
    let n : Nat := x.magnitude / unitsInOne
    some (if x.negative then -(n : Int) else n)
  else none

/-- The number without its fraction. -/
def truncate (x : Finite) : Int :=
  let n : Nat := x.magnitude / unitsInOne
  if x.negative then -(n : Int) else n

/-- The number with these parts, when they are parts of a finite number. -/
def ofParts? (negative : Bool) (mantissa shift : Nat) : Option Finite :=
  if h : mantissa < 0x20000000000000 ∧ shift ≤ 2045 ∧
      (0x10000000000000 ≤ mantissa ∨ shift = 0) then
    some ⟨negative, mantissa, shift, h.1, h.2.1, h.2.2⟩
  else none

/-- The zero with the given sign. -/
def zero (negative : Bool) : Finite := ⟨negative, 0, 0, by decide, by decide, .inr rfl⟩

/-- The number one. -/
def one : Finite := ⟨false, 0x10000000000000, 1022, by decide, by decide, .inl (by decide)⟩

end Finite

/-- A number of the binary64 format. Not-a-number keeps its sign bit and no other bits. -/
inductive Double where
  | finite (x : Finite)
  | infinity (negative : Bool)
  | nan (negative : Bool)
deriving DecidableEq

namespace Double

/-- The zero with the given sign. -/
def zero (negative : Bool) : Double := .finite (.zero negative)

/-! ### Words -/

/-- The double that a 64-bit word denotes. -/
def ofBits (w : UInt64) : Double :=
  let n := w.toNat
  let negative := decide (0x8000000000000000 ≤ n)
  let exponent := n / 0x10000000000000 % 0x800
  let fraction := n % 0x10000000000000
  if h : exponent = 0 then
    .finite ⟨negative, fraction, 0, by omega, by decide, .inr rfl⟩
  else if h' : exponent = 2047 then
    if fraction = 0 then .infinity negative else .nan negative
  else
    .finite
      ⟨negative, 0x10000000000000 + fraction, exponent - 1, by omega, by omega, .inl (by omega)⟩

/-- The word of a double. -/
def toBits (x : Double) : UInt64 :=
  let word (negative : Bool) (rest : Nat) : UInt64 :=
    UInt64.ofNat (if negative then 0x8000000000000000 + rest else rest)
  match x with
  | .finite x =>
    if x.mantissa < 0x10000000000000 then word x.negative x.mantissa
    else word x.negative (x.shift * 0x10000000000000 + x.mantissa)
  | .infinity negative => word negative 0x7FF0000000000000
  | .nan negative => word negative 0x7FF8000000000000

theorem toNat_word {negative : Bool} {n : Nat} (h : n < 0x8000000000000000) :
    (UInt64.ofNat (if negative then 0x8000000000000000 + n else n)).toNat =
      if negative then 0x8000000000000000 + n else n := by
  rw [UInt64.toNat_ofNat']
  cases negative <;> simp <;> omega

/-- Every double is read back from its own word. -/
theorem ofBits_toBits (x : Double) : ofBits x.toBits = x := by
  rcases x with ⟨negative, mantissa, shift, hm, hs, hn⟩ | (_ | _) | (_ | _)
  · by_cases hlow : mantissa < 0x10000000000000
    · have hshift : shift = 0 := by omega
      subst hshift
      have hw := @toNat_word negative mantissa (by omega)
      simp only [toBits, hlow, if_true, ofBits, hw]
      cases negative <;> simp only [if_true, if_false, Bool.false_eq_true]
      all_goals
        rw [dif_pos (by omega)]
        simp
        omega
    · have hw := @toNat_word negative (shift * 0x10000000000000 + mantissa) (by omega)
      simp only [toBits, hlow, if_false, ofBits, hw]
      cases negative <;> simp only [if_true, if_false, Bool.false_eq_true]
      all_goals
        rw [dif_neg (by omega), dif_neg (by omega)]
        simp
        omega
  all_goals decide

/-! ### Order -/

/-- The order of two values; the two zeros are equal. -/
def compare? : Double → Double → Option Ordering
  | .nan _, _ => none
  | _, .nan _ => none
  | .finite x, .finite y => some (compare x.units y.units)
  | .finite _, .infinity negative => some (if negative then .gt else .lt)
  | .infinity negative, .finite _ => some (if negative then .lt else .gt)
  | .infinity true, .infinity true => some .eq
  | .infinity true, .infinity false => some .lt
  | .infinity false, .infinity true => some .gt
  | .infinity false, .infinity false => some .eq

/-- The value is a zero of either sign. -/
def isZero : Double → Bool
  | .finite x => x.isZero
  | _ => false

/-- The value is not a number, of either sign. -/
def isNan : Double → Bool
  | .nan _ => true
  | _ => false

theorem compare_swap (a b : Int) : (compare a b).swap = compare b a := by
  simp only [compare, compareOfLessAndEq]
  split <;> split <;> (try split) <;> (try split) <;> first | rfl | omega

theorem compare?_swap (x y : Double) : (x.compare? y).map Ordering.swap = y.compare? x := by
  rcases x with x | (_ | _) | _ <;> rcases y with y | (_ | _) | _ <;>
    simp [compare?, compare_swap]

theorem compare?_self {x : Double} (h : x.isNan = false) : x.compare? x = some .eq := by
  rcases x with x | (_ | _) | _
  · simp [compare?, compare, compareOfLessAndEq]
  · rfl
  · rfl
  · cases h

/-! ### Rounding -/

/-- The quotient `num / den` rounded to a whole number, a half going to the even neighbour. -/
def roundHalfEven (num den : Nat) : Nat :=
  let q := num / den
  let r := num % den
  if 2 * r < den ∨ (2 * r = den ∧ q % 2 = 0) then q else q + 1

/-- The double with these parts; beyond the largest shift stands an infinity. -/
def ofParts (negative : Bool) (mantissa shift : Nat) : Double :=
  match Finite.ofParts? negative mantissa shift with
  | some x => .finite x
  | none => .infinity negative

/-- The double nearest to `± num / den`. The shift is the least one at which the mantissa has
at most 53 bits; when rounding carries into a 54th bit the shift grows by one. -/
def ofRatio (negative : Bool) (num den : Nat) : Double :=
  let units := num * Finite.unitsInOne
  let shift := (units / den).log2 - 52
  let mantissa := roundHalfEven units (den <<< shift)
  if mantissa < 0x20000000000000 then ofParts negative mantissa shift
  else ofParts negative 0x10000000000000 (shift + 1)

/-- The double nearest to an integer. -/
def ofInt (n : Int) : Double := ofRatio (n < 0) n.natAbs 1

/-- The double nearest to `± digits * 10 ^ exponent`. Exponents at which the result is an
infinity or a zero whatever the digits are settled without computing the power. -/
def ofDecimal (negative : Bool) (digits : Nat) (exponent : Int) : Double :=
  if digits = 0 then zero negative
  else if 400 < exponent then .infinity negative
  else if exponent + digits.log2 < -400 then zero negative
  else if 0 ≤ exponent then ofRatio negative (digits * powerOfTen exponent.toNat) 1
  else ofRatio negative digits (powerOfTen (-exponent).toNat)

/-- The integer that a whole number is; infinities and not-a-number are none. -/
def toInt? : Double → Option Int
  | .finite x => x.toInt?
  | _ => none

/-- The number without its fraction as an integer of 64 bits. Beyond the range it is the bound on
that side; not-a-number is zero. -/
def clamped : Double → Int64
  | .finite x => Int64.ofInt (max (-0x8000000000000000) (min x.truncate 0x7FFFFFFFFFFFFFFF))
  | .infinity negative => if negative then Int64.minValue else Int64.maxValue
  | .nan _ => 0

end Double

end Docstore
