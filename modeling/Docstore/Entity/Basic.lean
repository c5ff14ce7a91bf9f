import Docstore.Fields
import Docstore.Scalar.Basic

/-!
# Entities

The declaration of the fields that documents of one kind have.

* `Field` : a simple field, an object, an array of simple values or of objects, or a reference
  to another entity;
* `Entity` : a name and the members of the document itself;
* `Entity.Distinct` : no scope declares a name twice.
-/

namespace Docstore

/-- The declaration of a field. -/
inductive Field where
  | scalar (type : ScalarType)
  | object (members : List (String × Field))
  /-- An array of simple values. -/
  | scalarArray (type : ScalarType)
  /-- An array of objects. -/
  | objectArray (members : List (String × Field))
  /-- A reference to another entity, which is never stored. -/
  | reference (entity : String)

/-- The named members of an object, in order; a look-up finds the first of a name. -/
abbrev Members := Fields Field

/-- The declaration of an entity. -/
structure Entity where
  name : String
  /-- The members of the document. -/
  members : Members

namespace Field

mutual

/-- Member names are distinct in every scope of a field. -/
def DistinctNames : Field → Prop
  | .object members => Fields.Distinct members ∧ MembersDistinct members
  | .objectArray members => Fields.Distinct members ∧ MembersDistinct members
  | _ => True

/-- Member names are distinct in every scope below these members. -/
def MembersDistinct : List (String × Field) → Prop
  | [] => True
  | (_, field) :: rest => DistinctNames field ∧ MembersDistinct rest

end

/-- Values of the field are simple: a scalar field or an array of scalars. -/
def isLeaf : Field → Bool
  | .scalar _ => true
  | .scalarArray _ => true
  | _ => false

end Field

/-- Member names are distinct in every scope of an entity. -/
def Entity.Distinct (e : Entity) : Prop :=
  Fields.Distinct e.members ∧ Field.MembersDistinct e.members

end Docstore
