import Docstore.Bson.Basic
import Docstore.Error

/-!
# Sort orders

* `SortKey`, `SortOrder` : fields with a direction, the most important first;
* `SortOrder.native` : the direction of every field, `1` up and `-1` down;
* `SortOrder.requires` : sorting needs the value of a field.
-/

namespace Docstore

/-- A field to sort by. -/
structure SortKey where
  field : Path
  descending : Bool
deriving DecidableEq

/-- The keys of a sort, the most important first. -/
abbrev SortOrder := List SortKey

namespace SortKey

/-- The native direction. -/
def direction (k : SortKey) : Bson := .int32 (if k.descending then -1 else 1)

/-- The entry of a key; the root is no field to sort by. -/
def native (k : SortKey) : Except Error (String × Bson) :=
  if k.field = [] then .error .emptySortKey else .ok (k.field.storageText, k.direction)

end SortKey

namespace SortOrder

/-- The directions after the keys of a list. -/
def addKeys : SortOrder → Record → Except Error Record
  | [], directions => .ok directions
  | key :: rest, directions => do
    let (field, direction) ← key.native
    addKeys rest (directions.insert field direction)

/-- The direction of every field, in key order. A field that is listed twice keeps its first
place and takes its last direction. -/
def native (s : SortOrder) : Except Error Record := addKeys s []

/-- A key overlaps `field`. -/
def requires (s : SortOrder) (field : Path) : Bool :=
  s.any fun key => Path.overlaps key.field field

end SortOrder

end Docstore
