import Docstore.Mapper

/-!
# Decoding

Records become documents. The declaration of the entity is walked, so that every declared
field but references appears, as null when it is not stored, and nothing else does.

* `Field.decode` : the JSON value of one stored field;
* `Entity.decode` : the document of a record of a known entity;
* `Mapper.decode` : the document of a record that names its entity.

A stored value of another shape than declared is left out of an object, and is null as the
element of an array.
-/

namespace Docstore

/-- The JSON values of the elements of an array of simple values. -/
def ScalarType.decodeItems (t : ScalarType) : List Bson → Except Error (List Json)
  | [] => .ok []
  | item :: rest => do
    let value ← inPhase .decode (t.read item)
    return value :: (← decodeItems t rest)

/-- The JSON values of the elements of an array of objects, `decode` for the documents among
them. -/
def decodeElements (decode : Record → Except Error (Fields Json)) :
    List Bson → Except Error (List Json)
  | [] => .ok []
  | .document nested :: rest => do
    let members ← decode nested
    return .object members :: (← decodeElements decode rest)
  | _ :: rest => do return .null :: (← decodeElements decode rest)

mutual

/-- The JSON value of a stored one, or none when it is left out. -/
def Field.decode : Field → Bson → Except Error (Option Json)
  | .scalar t, stored => do return some (← inPhase .decode (t.read stored))
  | .object members, .document nested => do
    return some (.object (Fields.ofList (← Field.decodeMembers members nested)))
  | .scalarArray t, .array items => do return some (.array (← t.decodeItems items))
  | .objectArray members, .array items => do
    return some (.array (← decodeElements
      (fun nested => do return Fields.ofList (← Field.decodeMembers members nested)) items))
  | _, _ => .ok none

/-- The members of the document of a record, in the order of declaration. -/
def Field.decodeMembers : List (String × Field) → Record → Except Error (List (String × Json))
  | [], _ => .ok []
  | (_, .reference _) :: rest, record => Field.decodeMembers rest record
  | (name, field) :: rest, record =>
    match record.get? name with
    | none => do return (name, .null) :: (← Field.decodeMembers rest record)
    | some .null => do return (name, .null) :: (← Field.decodeMembers rest record)
    | some stored => do
      match ← Field.decode field stored with
      | some value => return (name, value) :: (← Field.decodeMembers rest record)
      | none => Field.decodeMembers rest record

end

/-- The document of a record of a known entity. -/
def Entity.decode (e : Entity) (record : Record) : Except Error Json := do
  return .object (Fields.ofList (← Field.decodeMembers e.members record))

namespace Mapper

variable (m : Mapper)

/-- The name of the entity that a record belongs to. -/
def entityNameOfRecord (record : Record) : Except Error String :=
  match record.get? m.options.entityField with
  | none => .error (.missingEntity m.options.entityField)
  | some (.string name) => .ok name
  | some value => .error (.storedEntityNotText value)

/-- The document of a record. -/
def decode (record : Record) : Except Error Json := do
  let e ← m.entity (← m.entityNameOfRecord record)
  e.decode record

/-- The documents of records; the first failure ends the row. -/
def decodeAll : List Record → Except Error (List Json)
  | [] => .ok []
  | record :: rest => do
    let document ← m.decode record
    return document :: (← decodeAll rest)

end Mapper

end Docstore
