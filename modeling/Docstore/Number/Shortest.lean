import Docstore.Number.Double
import Docstore.Number.PowerOfTen
import Docstore.Text.Digits

/-!
# Shortest decimal text of a double

The shortest decimal that rounds to a given double, and of the decimals of that length the
nearest one.

* `Finite.shortest` : the significant digits and the exponent of the first of them;
* `NumberLayout` : how a format writes digits and exponent as text;
* `Finite.text`, `Double.text` : the text in a layout.

For one, two, … seventeen digits the two neighbours of the value on that decimal grid are
tested against the interval of reals that round to the double: if any decimal of that length
lies in the interval then one of the two does.
-/

namespace Docstore

/-- Which neighbour is taken when both are equally near. -/
inductive Tie where
  /-- The one with the even last digit. -/
  | even
  /-- The larger one. -/
  | up
deriving DecidableEq

/-- Significant digits `d₁d₂…` and an exponent: the number `d₁.d₂… * 10 ^ exponent`. -/
structure Scientific where
  /-- The digits, without trailing zeros. -/
  digits : List Char
  /-- The power of ten of the first digit. -/
  exponent : Int
deriving DecidableEq

namespace Finite

/-- Decimal places computed of a value: more than the smallest positive number needs to show
seventeen significant digits. -/
def places : Nat := 400

/-- The digits of a positive value down to `places` decimal places, cut off there. -/
def expansion (x : Finite) : List Char :=
  Text.natDigits (x.magnitude * powerOfTen places / unitsInOne)

/-- Half the gap to the next larger number, in quarter units. -/
def gapAbove (x : Finite) : Nat := 2 <<< x.shift

/-- Half the gap to the next smaller number, in quarter units: half as wide at the lower end
of a binade. -/
def gapBelow (x : Finite) : Nat :=
  if x.mantissa = 0x10000000000000 ∧ 0 < x.shift then 1 <<< x.shift else 2 <<< x.shift

/-- The decimal `c * 10 ^ k` rounds to the positive number `x`. The ends of the interval do so
when the mantissa is even. -/
def covers (x : Finite) (c : Nat) (k : Int) : Bool :=
  let value := 4 * x.magnitude
  let scale := powerOfTen (-k).toNat
  let decimal := c * powerOfTen k.toNat * 4 * unitsInOne
  let low := (value - x.gapBelow) * scale
  let high := (value + x.gapAbove) * scale
  if x.mantissa % 2 = 0 then low ≤ decimal && decimal ≤ high
  else low < decimal && decimal < high

/-- The value lies nearer to `(c + 1) * 10 ^ k` than to `c * 10 ^ k`, a tie being settled as
`tie` says. -/
def nearerAbove (tie : Tie) (x : Finite) (c : Nat) (k : Int) : Bool :=
  let value := 2 * x.magnitude * powerOfTen (-k).toNat
  let middle := (2 * c + 1) * powerOfTen k.toNat * unitsInOne
  middle < value || (middle == value && (tie == .up || c % 2 == 1))

/-- The better neighbour with `n` digits, when one rounds to `x`. -/
def neighbour? (tie : Tie) (x : Finite) (k : Int) (c : Nat) : Option Nat :=
  match x.covers c k, x.covers (c + 1) k with
  | true, true => some (if x.nearerAbove tie c k then c + 1 else c)
  | true, false => some c
  | false, true => some (c + 1)
  | false, false => none

/-- The first number of digits, from `n` on, at which a decimal rounds to `x`. -/
def searchShortest (tie : Tie) (x : Finite) (digits : List Char) (top : Int) :
    (n fuel : Nat) → Nat × Int
  | n, 0 => (Nat.ofDigitChars 10 (digits.take n) 0, top - n + 1)
  | n, fuel + 1 =>
    let k := top - n + 1
    match x.neighbour? tie k (Nat.ofDigitChars 10 (digits.take n) 0) with
    | some c => (c, k)
    | none => searchShortest tie x digits top (n + 1) fuel

/-- The shortest decimal that rounds to a number; zero has the one digit `0`. -/
def shortest (tie : Tie) (x : Finite) : Scientific :=
  if x.isZero then ⟨['0'], 0⟩
  else
    let digits := x.expansion
    let top : Int := (digits.length : Int) - 1 - places
    let (c, k) := searchShortest tie x digits top 1 17
    let shown := Text.natDigits c
    ⟨Text.dropTrailingZeros shown, k + shown.length - 1⟩

end Finite

/-- How digits and exponent are laid out as text. -/
structure NumberLayout where
  /-- Which of two equally near decimals is written. -/
  tie : Tie
  /-- The exponents written without an exponent, first and last; none when absent. -/
  positional : Option (Int × Int)
  /-- Whole numbers in positional notation get `.0`. -/
  markWhole : Bool

namespace NumberLayout

/-- The exponent is written in positional notation. -/
def isPositional (layout : NumberLayout) (exponent : Int) : Bool :=
  match layout.positional with
  | none => true
  | some (first, last) => first ≤ exponent && exponent ≤ last

/-- Positional notation. -/
def positionalText (layout : NumberLayout) (s : Scientific) : List Char :=
  if s.exponent < 0 then
    '0' :: '.' :: (List.replicate (-s.exponent - 1).toNat '0' ++ s.digits)
  else
    let whole := s.exponent.toNat + 1
    let fraction := s.digits.drop whole
    let integer := s.digits.take whole ++ List.replicate (whole - s.digits.length) '0'
    if fraction.isEmpty then integer ++ (if layout.markWhole then ['.', '0'] else [])
    else integer ++ '.' :: fraction

/-- Notation with a signed exponent. -/
def exponentText (s : Scientific) : List Char :=
  let mantissa := match s.digits with
    | d :: e :: rest => d :: '.' :: e :: rest
    | ds => ds
  let sign := if s.exponent < 0 then '-' else '+'
  mantissa ++ 'e' :: sign :: Text.natDigits s.exponent.natAbs

/-- The text of a decimal. -/
def write (layout : NumberLayout) (s : Scientific) : List Char :=
  if layout.isPositional s.exponent then layout.positionalText s else exponentText s

end NumberLayout

/-- The text of a finite number. -/
def Finite.text (layout : NumberLayout) (x : Finite) : String :=
  let digits := layout.write (x.shortest layout.tie)
  String.ofList (if x.negative then '-' :: digits else digits)

/-- The text of a number; the others are `NaN`, `inf` and `-inf`. -/
def Double.text (layout : NumberLayout) : Double → String
  | .finite x => x.text layout
  | .infinity negative => if negative then "-inf" else "inf"
  | .nan _ => "NaN"

end Docstore
