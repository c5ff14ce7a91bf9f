import Docstore.Json.Basic
import Docstore.Number.Shortest
import Docstore.Text.Hex

/-!
# JSON text

The compact text of a JSON value: no blanks, members in order.

* `Json.layout` : how doubles are written;
* `Json.quote` : a string in quotes, in which only the quote, the backslash and control
  characters are escaped;
* `Json.text` : the text of a value.
-/

namespace Docstore.Json

/-- Doubles are written positionally for exponents from -5 to 15, with `.0` after whole
numbers, and otherwise with a signed exponent. -/
def layout : NumberLayout := ⟨.even, some (-5, 15), true⟩

/-- A character inside quotes. -/
def escape (c : Char) : List Char :=
  if c = '"' then ['\\', '"']
  else if c = '\\' then ['\\', '\\']
  else if 0x20 ≤ c.toNat then [c]
  else if c.toNat = 0x08 then ['\\', 'b']
  else if c.toNat = 0x09 then ['\\', 't']
  else if c.toNat = 0x0A then ['\\', 'n']
  else if c.toNat = 0x0C then ['\\', 'f']
  else if c.toNat = 0x0D then ['\\', 'r']
  else ['\\', 'u', '0', '0'] ++ Text.hexOfByte (UInt8.ofNat c.toNat)

/-- A string in quotes. -/
def quote (s : String) : String :=
  String.ofList ('"' :: (s.toList.flatMap escape ++ ['"']))

mutual

/-- The compact text of a value. -/
def text : Json → String
  | .null => "null"
  | .bool b => if b then "true" else "false"
  | .int n => Text.intText n
  | .double x => x.text layout
  | .string s => quote s
  | .array items => "[" ++ String.intercalate "," (itemTexts items) ++ "]"
  | .object members => "\x7b" ++ String.intercalate "," (memberTexts members) ++ "\x7d"

/-- The texts of the elements of an array. -/
def itemTexts : List Json → List String
  | [] => []
  | item :: rest => item.text :: itemTexts rest

/-- The texts of the members of an object. -/
def memberTexts : List (String × Json) → List String
  | [] => []
  | (name, value) :: rest => (quote name ++ ":" ++ value.text) :: memberTexts rest

end

end Docstore.Json
