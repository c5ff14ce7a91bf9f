import Docstore.Bson.Basic
import Docstore.Error

/-!
# Values of a record

* `Bson.follow?` : the value that names and indices lead to;
* `valueAt` : the value at a path of a record.
-/

namespace Docstore

/-- The value that the steps of a path lead to; wildcards and missing steps lead nowhere. -/
def Bson.follow? : Path → Bson → Option Bson
  | [], value => some value
  | .name key :: rest, .document fields => (Fields.get? key fields).bind (Bson.follow? rest)
  | .index i :: rest, .array items => items[i]?.bind (Bson.follow? rest)
  | _, _ => none

/-- The value at a path of a record. The record itself is no value of it. -/
def valueAt (record : Record) (path : Path) : Except Error Bson :=
  match path with
  | [] => .error (.unusablePath path)
  | _ =>
    match Bson.follow? path (.document record) with
    | some value => .ok value
    | none => .error (.unusablePath path)

end Docstore
