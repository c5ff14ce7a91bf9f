import Docstore.Bson.ObjectId
import Docstore.Fields
import Docstore.Number.Double

/-!
# Stored values

* `Bson` : a value as the store keeps it;
* `Record` : a stored document, fields in order;
* `Bson.WellFormed` : what every stored value satisfies, that names within a document differ.

Two kinds of stored values are left out: decimals of 128 bits and database pointers.
-/

namespace Docstore

/-- A value as the store keeps it. -/
inductive Bson where
  | null
  | bool (b : Bool)
  | int32 (n : Int32)
  | int64 (n : Int64)
  | double (x : Double)
  | string (s : String)
  | array (items : List Bson)
  | document (fields : List (String × Bson))
  | objectId (id : ObjectId)
  /-- Milliseconds since 1970-01-01T00:00:00Z. -/
  | date (millis : Int64)
  | regex (pattern options : String)
  | timestamp (time increment : UInt32)
  | binary (subtype : UInt8) (bytes : List UInt8)
  | symbol (s : String)
  | code (source : String)
  | codeWithScope (source : String) (scope : List (String × Bson))
  | undefined
  | minKey
  | maxKey
deriving Inhabited

/-- A stored document. -/
abbrev Record := Fields Bson

namespace Bson

mutual

/-- The fields of every document have distinct names. -/
def WellFormed : Bson → Prop
  | .array items => AllWellFormed items
  | .document fields => Fields.Distinct fields ∧ FieldsWellFormed fields
  | .codeWithScope _ scope => Fields.Distinct scope ∧ FieldsWellFormed scope
  | _ => True

/-- Every element is well formed. -/
def AllWellFormed : List Bson → Prop
  | [] => True
  | item :: rest => WellFormed item ∧ AllWellFormed rest

/-- Every field is well formed. -/
def FieldsWellFormed : List (String × Bson) → Prop
  | [] => True
  | (_, value) :: rest => WellFormed value ∧ FieldsWellFormed rest

end

end Bson

end Docstore
