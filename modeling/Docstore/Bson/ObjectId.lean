import Docstore.Text.Hex

/-!
# Object identifiers

* `ObjectId` : twelve bytes, held as their 24 hexadecimal digits;
* `ObjectId.ofText?` : reads 24 digits of either case and nothing else;
* `ObjectId.text` : writes them in lower case.

An identifier is read back from its own text (`ObjectId.ofText?_text`).
-/

namespace Docstore

/-- An identifier of twelve bytes. -/
structure ObjectId where
  /-- The hexadecimal digits, high half of the first byte first. -/
  digits : List (Fin 16)
  length_eq : digits.length = 24
deriving DecidableEq

namespace ObjectId

/-- The digits of a text in which every character is a hexadecimal digit. -/
def readDigits? : List Char → Option (List (Fin 16))
  | [] => some []
  | c :: rest => do
    let d ← Text.hexValue? c
    let ds ← readDigits? rest
    return d :: ds

/-- The identifier with these digits, when there are 24. -/
def ofDigits? (digits : List (Fin 16)) : Option ObjectId :=
  if h : digits.length = 24 then some ⟨digits, h⟩ else none

/-- The identifier that a text of 24 digits denotes. -/
def ofText? (text : String) : Option ObjectId :=
  (readDigits? text.toList).bind ofDigits?

/-- The digits in lower case. -/
def text (id : ObjectId) : String := String.ofList (id.digits.map Text.hexChar)

theorem readDigits?_map_hexChar (ds : List (Fin 16)) :
    readDigits? (ds.map Text.hexChar) = some ds := by
  induction ds with
  | nil => rfl
  | cons d ds ih => simp [readDigits?, Text.hexValue?_hexChar, ih]

/-- An identifier is read back from its own text. -/
theorem ofText?_text (id : ObjectId) : ofText? id.text = some id := by
  simp [ofText?, text, String.toList_ofList, readDigits?_map_hexChar, ofDigits?, id.length_eq]

end ObjectId

/-- A text is an object identifier: exactly 24 hexadecimal digits. -/
def isObjectId (text : String) : Bool := (ObjectId.ofText? text).isSome

end Docstore
