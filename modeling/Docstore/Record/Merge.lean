import Docstore.Record.Encode

/-!
# Undeclared fields

A record that replaces another one takes over the fields that no declaration mentions.

* `Members.merge` : the new fields followed by the undeclared ones that they lack, at every
  depth of declared objects;
* `Mapper.preserve` : the same by the policy of a mapper;
* `Mapper.replace` : the record of a document that replaces a stored one.

Nothing of the new record is overwritten, and arrays are left as they are: there is no telling
which old element belongs to which new one.
-/

namespace Docstore

mutual

/-- The new fields with what the old ones hold beyond the declaration. -/
def Members.merge (declared : Members) : (old : List (String × Bson)) → Record → Record
  | [], new => new
  | (name, value) :: rest, new =>
    let merged := match declared.get? name with
      | none => if new.contains name then new else new.insert name value
      | some (.object members) => Members.mergeInto members name value new
      | some _ => new
    Members.merge declared rest merged

/-- The new fields after the declared object `name` was merged with its old value. -/
def Members.mergeInto (declared : Members) (name : String) : (old : Bson) → Record → Record
  | .document old, new =>
    match new.get? name with
    | some (.document nested) => new.insert name (.document (Members.merge declared old nested))
    | _ => new
  | _, new => new

end

namespace Mapper

variable (m : Mapper)

/-- The new record with the undeclared fields of the old one that the policy keeps. -/
def preserve (e : Entity) (old new : Record) : Record :=
  match m.policy with
  | .keep => Members.merge e.members old new
  | .discard => new

/-- The record of a document that replaces `previous`. -/
def replace (document : Json) (previous : Record) : Except Error Record := do
  let e ← m.entity (← m.entityNameOf document)
  let record ← m.encodeAs e document
  return m.preserve e previous record

end Mapper

end Docstore
