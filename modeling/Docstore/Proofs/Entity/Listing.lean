import Docstore.Entity.Cursor
import Docstore.Mapper

/-!
# The list of fields

* `Cursor.below` : the nodes below a cursor, parents before children;
* `Cursor.mem_below_of_follow?` : a path leads to a listed node;
* `Cursor.path_of_follow?` : the path of the node that a path leads to;
* `Path.labels` : a path with wildcards for its indices;
* `Entity.mem_fields_of_resolve?` : every path that leads below the root leads to a field of the
  entity's list.
-/

namespace Docstore

/-- Every node below a cursor, parents first. -/
def Cursor.below (c : Cursor) : List Cursor :=
  match c.node with
  | .field f => f.descendants c.trail
  | .scalarElement _ => []
  | .objectElement members => Members.descendants (.objectElement members) c.trail 0 members

namespace Cursor

variable {c c' : Cursor}

/-- A member is listed, with everything below it. -/
theorem mem_descendants_of_findMember? {parent : Node} {trail : List Step} {key : String}
    {i : Nat} {members : Members} (h : findMember? parent trail key i members = some c) :
    c ∈ Members.descendants parent trail i members ∧
      c.below ⊆ Members.descendants parent trail i members := by
  induction members generalizing i with
  | nil => cases h
  | cons member rest ih =>
    obtain ⟨name, f⟩ := member
    rw [findMember?] at h
    rw [Members.descendants]
    by_cases hname : name = key
    · rw [if_pos hname] at h
      obtain rfl := Option.some.inj h
      subst hname
      exact ⟨List.mem_cons_self, fun c' hc' =>
        List.mem_cons_of_mem _ (List.mem_append_left _ hc')⟩
    · rw [if_neg hname] at h
      obtain ⟨hmem, hbelow⟩ := ih h
      exact ⟨List.mem_cons_of_mem _ (List.mem_append_right _ hmem), fun c' hc' =>
        List.mem_cons_of_mem _ (List.mem_append_right _ (hbelow hc'))⟩

/-- One step down leads to a listed node, and nothing below it is missing from the list. -/
theorem mem_below_of_step? {s : Segment} (h : c.step? s = some c') :
    c' ∈ c.below ∧ c'.below ⊆ c.below := by
  obtain ⟨node, trail⟩ := c
  have helement : ∀ {c'}, Cursor.element? ⟨node, trail⟩ = some c' →
      c' ∈ Cursor.below ⟨node, trail⟩ ∧ c'.below ⊆ Cursor.below ⟨node, trail⟩ := by
    intro c' h
    rcases node with (t | members | t | members | entity) | t | members
    case field.scalarArray =>
      obtain rfl := Option.some.inj h
      exact ⟨List.mem_cons_self, fun c hc => by cases hc⟩
    case field.objectArray =>
      obtain rfl := Option.some.inj h
      exact ⟨List.mem_cons_self, fun c hc => List.mem_cons_of_mem _ hc⟩
    all_goals cases h
  cases s with
  | name key =>
    rcases node with (t | members | t | members | entity) | t | members
    case field.object => exact mem_descendants_of_findMember? h
    case objectElement => exact mem_descendants_of_findMember? h
    all_goals cases h
  | index i => exact helement h
  | any => exact helement h

/-- A path leads to the cursor itself or to a listed node. -/
theorem mem_below_of_follow? {p : Path} (h : c.follow? p = some c') : c' = c ∨ c' ∈ c.below := by
  induction p generalizing c with
  | nil => exact .inl (Option.some.inj h).symm
  | cons s rest ih =>
    obtain ⟨next, hnext, h⟩ := Option.bind_eq_some_iff.1 h
    obtain ⟨hmem, hbelow⟩ := mem_below_of_step? hnext
    rcases ih h with rfl | hc'
    · exact .inr hmem
    · exact .inr (hbelow hc')

theorem resolve_of_follow? {p : Path} (h : c.follow? p = some c') : c.resolve p = .ok c' := by
  rw [resolve, h]

theorem resolve_of_follow?_eq_none {p : Path} (h : c.follow? p = none) :
    c.resolve p = .error (.invalidField p) := by
  rw [resolve, h]

/-- A path that leads to nothing of use is refused like one that leads nowhere. -/
theorem resolve_bind_eq_error {α : Type} {p : Path} {use : Cursor → Except Error α}
    (h : ∀ c', c.follow? p = some c' → use c' = .error (.invalidField p)) :
    c.resolve p >>= use = .error (.invalidField p) := by
  cases hc : c.follow? p with
  | none => rw [resolve_of_follow?_eq_none hc]; rfl
  | some c' => rw [resolve_of_follow? hc]; exact h c' hc

theorem follow?_of_resolve {p : Path} (h : c.resolve p = .ok c') : c.follow? p = some c' := by
  rw [resolve] at h
  split at h
  · obtain rfl := Except.ok.inj h
    assumption
  · cases h

/-! ### Paths of nodes -/

/-- The label of the step that a segment takes. Elements have no index. -/
def stepLabel : Segment → Segment
  | .name key => .name key
  | _ => .any

theorem stepLabel_stepLabel (s : Segment) : stepLabel (stepLabel s) = stepLabel s := by
  cases s <;> rfl

theorem path_of_findMember? {parent : Node} {trail : List Step} {key : String} {i : Nat}
    {members : Members} (h : findMember? parent trail key i members = some c) :
    c.path = (trail.map Step.label).reverse ++ [.name key] := by
  induction members generalizing i with
  | nil => cases h
  | cons member rest ih =>
    obtain ⟨name, f⟩ := member
    rw [findMember?] at h
    by_cases hname : name = key
    · rw [if_pos hname] at h
      obtain rfl := Option.some.inj h
      subst hname
      rw [path, List.map_cons, List.reverse_cons]
    · rw [if_neg hname] at h
      exact ih h

theorem path_of_step? {s : Segment} (h : c.step? s = some c') :
    c'.path = c.path ++ [stepLabel s] := by
  have helement : c.element? = some c' → c'.path = c.path ++ [.any] := by
    intro helement
    obtain ⟨node, -, rfl⟩ := Option.map_eq_some_iff.1 helement
    rw [path, List.map_cons, List.reverse_cons]
    rfl
  cases s with
  | name key => exact path_of_findMember? h
  | index i => exact helement h
  | any => exact helement h

/-- The path of a node is the path that leads to it, with wildcards for indices. -/
theorem path_of_follow? {p : Path} (h : c.follow? p = some c') :
    c'.path = c.path ++ p.map stepLabel := by
  induction p generalizing c with
  | nil =>
    obtain rfl := Option.some.inj h
    exact (List.append_nil _).symm
  | cons s rest ih =>
    obtain ⟨next, hnext, h⟩ := Option.bind_eq_some_iff.1 h
    rw [ih h, path_of_step? hnext, List.append_assoc, List.map_cons]
    rfl

end Cursor

namespace Path

/-- The path with a wildcard for every index. -/
def labels (p : Path) : Path := p.map Cursor.stepLabel

theorem labels_append (p q : Path) : labels (p ++ q) = p.labels ++ q.labels := List.map_append

theorem labels_labels (p : Path) : p.labels.labels = p.labels := by
  rw [labels, labels, List.map_map]
  exact List.map_congr_left fun s _ => Cursor.stepLabel_stepLabel s

/-- A path of one name is told by its labels. -/
theorem eq_of_labels_eq_name {p : Path} {key : String} (h : p.labels = [.name key]) :
    p = [.name key] := by
  obtain ⟨s, rfl, hs⟩ : ∃ s, p = [s] ∧ Cursor.stepLabel s = .name key := by
    simpa [labels, List.map_eq_singleton_iff] using h
  cases s <;> cases hs
  rfl

end Path

/-- A path leads to the document itself or to a field of the entity's list. -/
theorem Entity.mem_fields_of_resolve? {e : Entity} {p : Path} {c : Cursor}
    (h : e.resolve? p = some c) : c = e.root ∨ c ∈ e.fields :=
  Cursor.mem_below_of_follow? h

end Docstore
