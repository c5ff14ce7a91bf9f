import Docstore.Bson.Basic
import Docstore.Number.Shortest
import Docstore.Text.Base64
import Docstore.Time.Instant

/-!
# Text of stored values

The text in which a stored value appears in messages, and which an identifier that is neither
text nor a number is turned into.

* `Bson.layout` : doubles never have an exponent, and whole ones no fraction;
* `Bson.text` : the text of a value. Strings and keys stand in quotes without any escaping.
-/

namespace Docstore.Bson

/-- Doubles are written positionally, without a fraction when they are whole. -/
def layout : NumberLayout := ⟨.up, none, false⟩

/-- A text in quotes, as it is. -/
def quoted (s : String) : String := "\"" ++ s ++ "\""

/-- The text of a truth value. -/
def boolText (b : Bool) : String := if b then "true" else "false"

/-- Braces around the fields of a document, with blanks inside unless it is empty. -/
def braced : List String → String
  | [] => "\x7b\x7d"
  | fields => "\x7b " ++ String.intercalate ", " fields ++ " \x7d"

mutual

/-- The text of a stored value. -/
def text : Bson → String
  | .null => "null"
  | .bool b => boolText b
  | .int32 n => Text.intText n.toInt
  | .int64 n => Text.intText n.toInt
  | .double x => x.text layout
  | .string s => quoted s
  | .array items => "[" ++ String.intercalate ", " (itemTexts items) ++ "]"
  | .document fields => braced (fieldTexts fields)
  | .objectId id => "ObjectId(" ++ quoted id.text ++ ")"
  | .date millis => "DateTime(" ++ quoted (Instant.longText millis.toInt) ++ ")"
  | .regex pattern options => "/" ++ pattern ++ "/" ++ options
  | .timestamp time increment =>
    "Timestamp(" ++ Text.natText time.toNat ++ ", " ++ Text.natText increment.toNat ++ ")"
  | .binary subtype bytes =>
    "Binary(0x" ++ String.ofList (Text.hexOfNat subtype.toNat) ++ ", " ++
      String.ofList (Text.base64OfBytes bytes) ++ ")"
  | .symbol s => "Symbol(" ++ quoted s ++ ")"
  | .code source => source
  | .codeWithScope source _ => source
  | .undefined => "undefined"
  | .minKey => "MinKey"
  | .maxKey => "MaxKey"

/-- The texts of the elements of an array. -/
def itemTexts : List Bson → List String
  | [] => []
  | item :: rest => item.text :: itemTexts rest

/-- The texts of the fields of a document. -/
def fieldTexts : List (String × Bson) → List String
  | [] => []
  | (name, value) :: rest => (quoted name ++ ": " ++ value.text) :: fieldTexts rest

end

end Docstore.Bson
