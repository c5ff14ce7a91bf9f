import Docstore.Bson.Text

/-!
# Identifiers

The value of the reserved identifier field has one stored form, however it was written.

* `Bson.asIdentifier` : null stays null, what reads as 24 hexadecimal digits becomes an object
  identifier, and anything else its text.
-/

namespace Docstore.Bson

/-- The text that an identifier is recognized by: a string as it is, and other values as they
appear in messages. -/
def identifierText : Bson → String
  | .string s => s
  | value => value.text

/-- An object identifier when the text is one, and the text otherwise. -/
def identifierOfText (text : String) : Bson :=
  match ObjectId.ofText? text with
  | some id => .objectId id
  | none => .string text

/-- The stored form of an identifier. -/
def asIdentifier : Bson → Bson
  | .null => .null
  | .undefined => .null
  | .objectId id => .objectId id
  | value => identifierOfText value.identifierText

end Docstore.Bson
