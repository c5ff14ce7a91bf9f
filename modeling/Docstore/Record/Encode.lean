import Docstore.Mapper

/-!
# Encoding

Documents become records. The document is walked together with the declaration of its entity,
and every member has to be declared there.

* `Mapper.encodeField` : the stored form of one member;
* `Mapper.encodeAs` : the record of a document of a known entity;
* `Mapper.encode` : the record of a document that names its entity.

The first member or element in document order that cannot be stored decides the error.
-/

namespace Docstore.Mapper

variable (m : Mapper)

/-- The stored form of a simple value; the identifier of the document takes its one form. -/
def encodeScalar (t : ScalarType) (path : Path) (value : Json) : Except Error Bson := do
  let canonical ← inPhase .encode (t.cast value)
  if canonical.isNull then return .null
  else if m.isIdPath path then return canonical.stored.asIdentifier
  else return canonical.stored

/-- The stored forms of the elements of an array of simple values. -/
def encodeScalars (t : ScalarType) : List Json → Except Error (List Bson)
  | [] => .ok []
  | item :: rest => do
    let canonical ← inPhase .encode (t.cast item)
    return canonical.stored :: (← encodeScalars t rest)

mutual

/-- The stored form of a member at `path`. -/
def encodeField (path : Path) : Field → Json → Except Error Bson
  | .scalar t, value => m.encodeScalar t path value
  | .reference entity, _ => .error (.referenceField path entity)
  | .object _, .null => .ok .null
  | .object members, .object nested => do
    return .document (← encodeMembers members path nested)
  | .scalarArray _, .null => .ok .null
  | .scalarArray t, .array items => do return .array (← encodeScalars t items)
  | .objectArray _, .null => .ok .null
  | .objectArray members, .array items => do
    return .array (← encodeElements members path 0 items)
  | _, _ => .error (.invalidField path)

/-- The stored forms of the members of an object at `path`. -/
def encodeMembers (declared : Members) (path : Path) :
    List (String × Json) → Except Error (List (String × Bson))
  | [] => .ok []
  | (name, value) :: rest => do
    let here := path.child (.name name)
    match declared.get? name with
    | none => throw (.invalidField here)
    | some field => do
      let stored ← encodeField here field value
      return (name, stored) :: (← encodeMembers declared path rest)

/-- The stored forms of the elements of an array of objects, from index `i` on. -/
def encodeElements (declared : Members) (path : Path) :
    (i : Nat) → List Json → Except Error (List Bson)
  | _, [] => .ok []
  | i, item :: rest => do
    let stored ← encodeElement declared (path.child (.index i)) item
    return stored :: (← encodeElements declared path (i + 1) rest)

/-- The stored form of an element of an array of objects. -/
def encodeElement (declared : Members) (path : Path) : Json → Except Error Bson
  | .null => .ok .null
  | .object nested => do return .document (← encodeMembers declared path nested)
  | _ => .error (.invalidField path)

end

/-- The record of a document of a known entity. -/
def encodeAs (e : Entity) : Json → Except Error Record
  | .object members => m.encodeMembers e.members .root members
  | document => .error (.notAnObject document)

/-- The name of the entity that a document belongs to. -/
def entityNameOf (document : Json) : Except Error String :=
  match document.get? m.options.entityField with
  | none => .error (.missingEntity m.options.entityField)
  | some (.string name) => .ok name
  | some value => .error (.entityNotText value)

/-- The record of a document. -/
def encode (document : Json) : Except Error Record := do
  let e ← m.entity (← m.entityNameOf document)
  m.encodeAs e document

/-- The records of documents; the first failure ends the row. -/
def encodeAll : List Json → Except Error (List Record)
  | [] => .ok []
  | document :: rest => do
    let record ← m.encode document
    return record :: (← encodeAll rest)

end Docstore.Mapper
