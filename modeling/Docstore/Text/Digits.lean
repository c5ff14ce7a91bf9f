/-!
# Decimal digits of whole numbers

* `natDigits` : the digits of a natural number, without leading zeros;
* `natOfDigits?` : the value of a run of digits;
* `intText`, `intOfText?` : integers, with an optional sign when read;
* `padLeft` : fixed-width fields.

A natural number is read back from its own digits (`natOfDigits?_natDigits`).
-/

namespace Docstore.Text

/-- The decimal digits of `n`; zero has the one digit `0`. -/
def natDigits (n : Nat) : List Char := Nat.toDigits 10 n

/-- The decimal text of `n`. -/
def natText (n : Nat) : String := String.ofList (natDigits n)

/-- The value of a non-empty run of ASCII digits. -/
def natOfDigits? (cs : List Char) : Option Nat :=
  if cs = [] then none
  else if cs.all Char.isDigit then some (Nat.ofDigitChars 10 cs 0)
  else none

/-- The decimal characters of `n`, with `-` in front of a negative number. -/
def intDigits (n : Int) : List Char :=
  if n < 0 then '-' :: natDigits n.natAbs else natDigits n.natAbs

/-- The decimal text of `n`. -/
def intText (n : Int) : String := String.ofList (intDigits n)

/-- Splits off one leading sign: whether it is `-`, and the rest. -/
def splitSign : List Char → Bool × List Char
  | '-' :: cs => (true, cs)
  | '+' :: cs => (false, cs)
  | cs => (false, cs)

/-- The value of digits behind an optional `+` or `-`. -/
def intOfText? (cs : List Char) : Option Int :=
  let (negative, ds) := splitSign cs
  (natOfDigits? ds).map fun n => if negative then -(n : Int) else n

/-- The characters `cs` with zeros in front, at least `width` characters long. -/
def padLeft (width : Nat) (cs : List Char) : List Char :=
  List.replicate (width - cs.length) '0' ++ cs

/-- The text without its last zeros. -/
def dropTrailingZeros (cs : List Char) : List Char :=
  (cs.reverse.dropWhile (· == '0')).reverse

theorem natDigits_ne_nil (n : Nat) : natDigits n ≠ [] := Nat.toDigits_ne_nil

theorem isDigit_of_mem_natDigits {n : Nat} {c : Char} (h : c ∈ natDigits n) :
    c.isDigit = true :=
  Nat.isDigit_of_mem_toDigits (by decide) (by decide) h

/-- A natural number is read back from its own digits. -/
theorem natOfDigits?_natDigits (n : Nat) : natOfDigits? (natDigits n) = some n := by
  have hall : (natDigits n).all Char.isDigit = true :=
    List.all_eq_true.2 fun _ h => isDigit_of_mem_natDigits h
  simp only [natOfDigits?, natDigits_ne_nil, if_false, hall, if_true]
  exact congrArg some (Nat.ofDigitChars_toDigits (by decide) (by decide))

end Docstore.Text
