import Docstore.Query.Basic

/-!
# Projections

* `Projection` : which fields of a document are wanted;
* `Projection.requires` : evaluating a projection needs the value of a field.

Only the included parts of a projection need anything.
-/

namespace Docstore

/-- Which fields of a document are wanted. -/
inductive Projection where
  /-- A field: with everything below it when recursive, and otherwise with its direct members,
  where the elements of an array do not count as a level. -/
  | field (path : Path) (included recursive : Bool)
  /-- The elements of an array that satisfy a query. The paths of the query and of `elements`
  start at the element. -/
  | array (path : Path) (included : Bool) (filter : Option Query) (elements : Projection)
  | list (items : List Projection)

/-- The number of names and indices of `field` beyond the end of `target`. -/
def levelsBelow (target field : Path) : Nat :=
  ((field.drop target.length).filter fun s => !s.isAny).length

namespace Projection

mutual

/-- A projection whose paths start at `base` needs the value of `field`. -/
def requiresUnder (base : Path) (field : Path) : Projection → Bool
  | .field path included recursive =>
    let target := base.join path
    included && Path.overlaps target field && (recursive || levelsBelow target field ≤ 1)
  | .array path included filter elements =>
    let array := base.join path
    let inside := array.child .any
    included &&
      ((match filter with
        | some q => (q.fieldsRead inside).any fun read => Path.overlaps read field
        | none => false) ||
        requiresUnder inside field elements ||
        (decide (field.length ≤ array.length) && Path.overlaps array field))
  | .list items => anyRequiresUnder base field items

/-- A projection of a list needs the value of `field`. -/
def anyRequiresUnder (base : Path) (field : Path) : List Projection → Bool
  | [] => false
  | item :: rest => requiresUnder base field item || anyRequiresUnder base field rest

end

/-- The projection of a document needs the value of `field`. -/
def requires (p : Projection) (field : Path) : Bool := p.requiresUnder .root field

end Projection

end Docstore
