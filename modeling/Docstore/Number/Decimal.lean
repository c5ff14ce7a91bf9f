import Docstore.Number.Double
import Docstore.Text.Digits

/-!
# Decimals

Numbers of a sign, a mantissa of 96 bits and up to 28 decimal places.

* `Decimal` : the parts; the scale counts the decimal places, so `1.50` differs from `1.5`;
* `Decimal.text` : all decimal places, and `-` whenever the sign is set;
* `Decimal.ofText?` : digits with at most one point and separators `_`, or such a number with
  an exponent;
* `Decimal.ofDouble?` : the decimal close to a double;
* `Decimal.numerator` : the value, times `10 ^ scale`.
-/

namespace Docstore

/-- A decimal number, `± mantissa / 10 ^ scale`. -/
structure Decimal where
  /-- The sign, also of a zero. -/
  negative : Bool
  /-- The digits, as one number. -/
  mantissa : Nat
  /-- The number of decimal places. -/
  scale : Nat
  mantissa_lt : mantissa < 0x1000000000000000000000000
  scale_le : scale ≤ 28
deriving DecidableEq

namespace Decimal

/-- The first mantissa that is too large. -/
def mantissaLimit : Nat := 0x1000000000000000000000000

/-- The greatest number of decimal places. -/
def maxScale : Nat := 28

/-- The decimal with these parts, when they fit. -/
def ofParts? (negative : Bool) (mantissa scale : Nat) : Option Decimal :=
  if h : mantissa < mantissaLimit ∧ scale ≤ maxScale then
    some ⟨negative, mantissa, scale, h.1, h.2⟩
  else none

/-- The signed mantissa: the value times `10 ^ scale`. -/
def numerator (d : Decimal) : Int := if d.negative then -(d.mantissa : Int) else d.mantissa

/-- The whole part, cut off toward zero. -/
def truncate (d : Decimal) : Int :=
  let whole : Nat := d.mantissa / powerOfTen d.scale
  if d.negative then -(whole : Int) else whole

/-- An integer of 64 bits as a decimal. -/
def ofInt64 (n : Int64) : Decimal :=
  ⟨n.toInt < 0, n.toInt.natAbs, 0, by have := n.le_toInt; have := n.toInt_lt; omega, by decide⟩

/-! ### Text -/

/-- The text of a decimal, with all its places. -/
def text (d : Decimal) : String :=
  let digits := Text.padLeft (d.scale + 1) (Text.natDigits d.mantissa)
  let whole := digits.take (digits.length - d.scale)
  let fraction := digits.drop (digits.length - d.scale)
  let unsigned := if d.scale = 0 then whole else whole ++ '.' :: fraction
  String.ofList (if d.negative then '-' :: unsigned else unsigned)

/-- The decimal that reading ends with: a zero has no sign. -/
def ofRead? (negative : Bool) (mantissa scale : Nat) : Option Decimal :=
  ofParts? (negative && mantissa != 0) mantissa scale

/-- What is left of a number once there is no room for more digits: the next character is a
digit that rounds, and the others have to be digits or separators but do not count. A carry out
of 96 bits costs one decimal place. -/
def readRounded? (negative : Bool) (mantissa scale : Nat) (next : Char) (rest : List Char) :
    Option Decimal :=
  if next.isDigit && rest.all fun c => c.isDigit || c == '_' then
    if 5 ≤ next.toNat - '0'.toNat then
      if mantissa + 1 < mantissaLimit then ofRead? negative (mantissa + 1) scale
      else if scale = 0 then none
      else ofRead? negative ((mantissa + 5) / 10) (scale - 1)
    else ofRead? negative mantissa scale
  else none

/-- Reads digits: `point` and `seen` tell whether the point and a digit have been met, and
`mantissa` and `scale` hold what has been read. Behind the first digit a separator stands
anywhere. -/
def readDigits? (negative : Bool) :
    (point seen : Bool) → (mantissa scale : Nat) → List Char → Option Decimal
  | _, seen, mantissa, scale, [] => if seen then ofRead? negative mantissa scale else none
  | point, seen, mantissa, scale, c :: rest =>
    if c == '_' && seen then readDigits? negative point seen mantissa scale rest
    else if maxScale ≤ scale then readRounded? negative mantissa scale c rest
    else if c.isDigit then
      let grown := 10 * mantissa + (c.toNat - '0'.toNat)
      if grown < mantissaLimit then
        readDigits? negative point true grown (if point then scale + 1 else scale) rest
      else if point then readRounded? negative mantissa scale c rest
      else none
    else if c == '.' && !point then readDigits? negative true seen mantissa scale rest
    else none

/-- Reads an optionally signed number without exponent. -/
def readPlain? (cs : List Char) : Option Decimal :=
  let (negative, digits) := Text.splitSign cs
  readDigits? negative false false 0 0 digits

/-- The quotient `mantissa / 10 ^ places`, a half rounding up. -/
def roundHalfUp (mantissa places : Nat) : Nat :=
  if places = 0 then mantissa
  else
    let kept := mantissa / powerOfTen places
    let dropped := mantissa / powerOfTen (places - 1) % 10
    if 5 ≤ dropped then kept + 1 else kept

/-- The decimal `d * 10 ^ (-n)`. Places beyond the greatest scale are rounded away first. -/
def shiftDown? (d : Decimal) (n : Nat) : Option Decimal :=
  if maxScale < n then none
  else if d.scale + n ≤ maxScale then ofParts? d.negative d.mantissa (d.scale + n)
  else ofParts? d.negative (roundHalfUp d.mantissa (d.scale + n - maxScale)) maxScale

/-- The decimal `d * 10 ^ n`. -/
def shiftUp? (d : Decimal) (n : Nat) : Option Decimal :=
  if n ≤ d.scale then ofParts? d.negative d.mantissa (d.scale - n)
  else if maxScale < n then none
  else ofParts? d.negative (d.mantissa * powerOfTen (n - d.scale)) 0

/-- The value of an exponent: digits behind an optional `+`, below `2 ^ 32`. -/
def exponentOfText? (cs : List Char) : Option Nat := do
  let digits := match cs with
    | '+' :: rest => rest
    | cs => cs
  let n ← Text.natOfDigits? digits
  if n < 0x100000000 then some n else none

/-- The character starts an exponent. -/
def isExponentMark (c : Char) : Bool := c == 'e' || c == 'E'

/-- Reads a number whose exponent stands behind the first `e`. -/
def readScientific? (cs : List Char) : Option Decimal :=
  match cs.dropWhile fun c => !isExponentMark c with
  | [] => none
  | _ :: exponent => do
    let d ← readPlain? (cs.takeWhile fun c => !isExponentMark c)
    match exponent with
    | '-' :: digits => do d.shiftDown? (← exponentOfText? digits)
    | digits => do d.shiftUp? (← exponentOfText? digits)

/-- The decimal that a text denotes. -/
def ofText? (text : String) : Option Decimal :=
  match readPlain? text.toList with
  | some d => some d
  | none => readScientific? text.toList

/-! ### Doubles

A double is a mantissa over or times a power of two. Each division by two is exact when the
mantissa is even, and otherwise becomes a multiplication by five with one more decimal place
as long as 96 bits have room for it. Places beyond the greatest scale, and then digits beyond
the 52 bits that a double vouches for, are rounded away one at a time. -/

/-- Divides by two `n` times; the second part of the result is the number of decimal places. -/
def divideTwos : (n mantissa scale : Nat) → Nat × Nat
  | 0, mantissa, scale => (mantissa, scale)
  | n + 1, mantissa, scale =>
    if mantissa % 2 = 0 then divideTwos n (mantissa / 2) scale
    else if mantissa * 5 < mantissaLimit then divideTwos n (mantissa * 5) (scale + 1)
    else divideTwos n (mantissa / 2) scale

/-- The mantissa without its last digit, a half rounding up. -/
def roundLast (mantissa : Nat) : Nat :=
  if 5 ≤ mantissa % 10 then mantissa / 10 + 1 else mantissa / 10

/-- Rounds away the places beyond the greatest scale; what vanishes is plain zero. -/
def fitScale : (mantissa scale : Nat) → Nat × Nat
  | mantissa, 0 => (mantissa, 0)
  | mantissa, scale + 1 =>
    if scale + 1 ≤ maxScale then (mantissa, scale + 1)
    else if mantissa / 10 = 0 then (0, 0)
    else fitScale (roundLast mantissa) scale

/-- Rounds away decimal places while the mantissa has more than 52 bits. -/
def fitMantissa : (mantissa scale : Nat) → Nat × Nat
  | mantissa, 0 => (mantissa, 0)
  | mantissa, scale + 1 =>
    if 0x10000000000000 ≤ mantissa then fitMantissa (roundLast mantissa) scale
    else (mantissa, scale + 1)

/-- Drops trailing zeros behind the point. -/
def stripZeros : (mantissa scale : Nat) → Nat × Nat
  | mantissa, 0 => (mantissa, 0)
  | mantissa, scale + 1 =>
    if mantissa % 10 = 0 then stripZeros (mantissa / 10) scale else (mantissa, scale + 1)

/-- The decimal close to a finite double; whole doubles of more than 96 bits have none. -/
def ofFinite? (x : Finite) : Option Decimal :=
  if x.isZero then ofParts? x.negative 0 0
  else if 1074 ≤ x.shift then ofParts? x.negative (x.mantissa <<< (x.shift - 1074)) 0
  else
    let (m, s) := divideTwos (1074 - x.shift) x.mantissa 0
    let (m, s) := fitScale m s
    let (m, s) := fitMantissa m s
    let (m, s) := stripZeros m s
    ofParts? x.negative m s

/-- The decimal close to a double. -/
def ofDouble? : Double → Option Decimal
  | .finite x => ofFinite? x
  | _ => none

end Decimal

end Docstore
