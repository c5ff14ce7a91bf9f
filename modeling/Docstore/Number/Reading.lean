import Docstore.Number.Double
import Docstore.Text.Digits

/-!
# Reading doubles

The text of a double is an optional sign and then `inf`, `infinity` or `nan` in any case of
letters, or digits with at most one point among or around them and an optional exponent.

* `Double.ofText?` : the double nearest to the number that the text denotes.
-/

namespace Docstore.Double

/-- The exponent part of a number: nothing, or `e` and an optionally signed run of digits. -/
def readExponent? : List Char → Option Int
  | [] => some 0
  | c :: rest => if c = 'e' ∨ c = 'E' then Text.intOfText? rest else none

/-- An unsigned number: digits, an optional fraction, an optional exponent. -/
def readNumber? (negative : Bool) (cs : List Char) : Option Double :=
  let whole := cs.takeWhile Char.isDigit
  let rest := cs.dropWhile Char.isDigit
  let (fraction, rest) := match rest with
    | '.' :: rest => (rest.takeWhile Char.isDigit, rest.dropWhile Char.isDigit)
    | rest => ([], rest)
  let digits := whole ++ fraction
  if digits.isEmpty then none
  else (readExponent? rest).map fun exponent =>
    ofDecimal negative (Nat.ofDigitChars 10 digits 0) (exponent - fraction.length)

/-- The double that a text denotes. -/
def ofText? (text : String) : Option Double :=
  let (negative, cs) := Text.splitSign text.toList
  let word := String.ofList (cs.map Char.toLower)
  if word = "nan" then some (.nan negative)
  else if word = "inf" ∨ word = "infinity" then some (.infinity negative)
  else readNumber? negative cs

end Docstore.Double
