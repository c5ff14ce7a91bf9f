import Docstore.Entity.Cursor
import Docstore.Error
import Docstore.Identifier

/-!
# Mappers

What all the ways between documents and records, and from requests to their native forms, share.

* `Options` : the names of the two reserved fields;
* `MergePolicy` : what happens to stored fields that no declaration mentions;
* `Mapper` : the known entities with options and policy;
* `Mapper.entity` : the declaration of an entity by name;
* `Mapper.identify` : identifiers take their one stored form at the top level.
-/

namespace Docstore

/-- The names of the reserved fields. -/
structure Options where
  /-- The field that names the entity of a document or record. -/
  entityField : String := "objectType"
  /-- The identifier field. -/
  idField : String := "_id"
deriving DecidableEq

namespace Options

/-- A name: the default when it is absent, and none when it is no text. -/
def nameOr? (default : String) : Option Json → Option String
  | none => some default
  | some (.string s) => some s
  | some _ => none

/-- The options with these two names. -/
def ofNames? (entityField idField : Option Json) : Option Options := do
  let entityField ← nameOr? "objectType" entityField
  let idField ← nameOr? "_id" idField
  return { entityField, idField }

/-- The options that JSON gives: an object in which unknown keys do not count, or a list of at
most two names in the order of the fields. -/
def ofJson? : Json → Option Options
  | .object members =>
    ofNames? (Fields.get? "object_type_field" members) (Fields.get? "id_field" members)
  | .array items => if items.length ≤ 2 then ofNames? items[0]? items[1]? else none
  | _ => none

end Options

/-- What a replacement does with stored fields that no declaration mentions. -/
inductive MergePolicy where
  /-- They are kept. -/
  | keep
  /-- They are lost. -/
  | discard
deriving DecidableEq

/-- The entities, the reserved fields, and the policy for undeclared fields. -/
structure Mapper where
  entities : Fields Entity
  options : Options := {}
  policy : MergePolicy := .keep

/-- A catalog of entities by name; a later one replaces an earlier one of its name. -/
def catalog (entities : List Entity) : Fields Entity :=
  Fields.ofList (entities.map fun e => (e.name, e))

namespace Mapper

/-- The declaration of an entity. -/
def entity (m : Mapper) (name : String) : Except Error Entity :=
  match m.entities.get? name with
  | some e => .ok e
  | none => .error (.unknownEntity name)

/-- The path of the identifier field of a document. -/
def isIdPath (m : Mapper) (p : Path) : Bool := p == [.name m.options.idField]

/-- The identifier form of a value at the identifier path of the document itself. -/
def identify (m : Mapper) (context : Cursor) (p : Path) (value : Bson) : Bson :=
  if context.isRoot && m.isIdPath p then value.asIdentifier else value

end Mapper

/-- The node that a path leads to from `context`. -/
def Cursor.resolve (context : Cursor) (p : Path) : Except Error Cursor :=
  match context.follow? p with
  | some c => .ok c
  | none => .error (.invalidField p)

end Docstore
