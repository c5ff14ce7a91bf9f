import Docstore.Bson.Basic
import Docstore.Entity.Cursor
import Docstore.Path.Text
import Docstore.Projection.Basic
import Docstore.Sort

/-!
# Required fields

What a store has to deliver so that a projection, a query and a sort can be evaluated.

* `Demand` : the parts of a request, any of which may be absent;
* `Entity.requiredFields` : the leaves that the demand needs, in path order;
* `Entity.nativeProjection` : the same as an inclusion projection.

The required fields are exactly the leaves that the demand needs (`mem_requiredFields`).
Leaves are simple fields and arrays of simple values. Objects, arrays of objects and elements
are only reached through the leaves below them, and references are not stored.
-/

namespace Docstore

/-- What is asked of the store. -/
structure Demand where
  projection : Option Projection := none
  query : Option Query := none
  sort : Option SortOrder := none

/-- Some part of the demand needs the value of `field`. -/
def Demand.requires (d : Demand) (field : Path) : Bool :=
  d.projection.any (·.requires field) || d.query.any (·.requires field) ||
    d.sort.any (SortOrder.requires · field)

/-- An ascending list of paths with one more path, unless it is there. -/
def Path.insertSorted (p : Path) : List Path → List Path
  | [] => [p]
  | q :: rest =>
    match Path.compare p q with
    | .lt => p :: q :: rest
    | .eq => q :: rest
    | .gt => q :: insertSorted p rest

theorem Path.mem_insertSorted {a p : Path} {l : List Path} :
    a ∈ insertSorted p l ↔ a = p ∨ a ∈ l := by
  induction l with
  | nil => simp [insertSorted]
  | cons q rest ih =>
    unfold insertSorted
    split
    · simp
    · rename_i h
      rw [compare_eq_iff.1 h]
      simp
    · simp only [List.mem_cons, ih]
      exact ⟨fun h => by rcases h with h | h | h <;> simp [h],
        fun h => by rcases h with h | h | h <;> simp [h]⟩

namespace Entity

/-- The paths of the leaves, in order of declaration. -/
def leaves (e : Entity) : List Path := (e.fields.filter fun c => c.node.isLeaf).map Cursor.path

/-- The leaves that a demand needs, in ascending order. -/
def requiredFields (e : Entity) (d : Demand) : List Path :=
  (e.leaves.filter d.requires).foldr Path.insertSorted []

/-- The projection that includes the required fields. -/
def nativeProjection (e : Entity) (d : Demand) : Record :=
  Fields.ofList ((e.requiredFields d).map fun p => (Path.storageText p, .int32 1))

/-- The required fields are the leaves that the demand needs. -/
theorem mem_requiredFields {e : Entity} {d : Demand} {p : Path} :
    p ∈ e.requiredFields d ↔ p ∈ e.leaves ∧ d.requires p = true := by
  have hmem : ∀ l : List Path, p ∈ l.foldr Path.insertSorted [] ↔ p ∈ l := by
    intro l
    induction l with
    | nil => rfl
    | cons q rest ih => rw [List.foldr_cons, Path.mem_insertSorted, ih, List.mem_cons]
  rw [requiredFields, hmem, List.mem_filter]

end Entity

end Docstore
