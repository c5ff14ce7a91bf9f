import Docstore.Proofs.Entity.Declared
import Docstore.Proofs.Entity.Listing
import Docstore.Proofs.Path.Overlap
import Docstore.Projection.Required

/-!
# Leaves around a node

A node without values of its own is represented by the leaves below it, and the element of an
array of simple values by the array.

* `Entity.Populated` : nothing is a reference, and every object declares a member;
* `Field.Populated.follow?` : so it is with what a path leads to;
* `Cursor.exists_leadsToLeaf` : there is a leaf at or below every populated field;
* `Entity.exists_leaf_of_resolve?` : every node of a populated entity overlaps a leaf, and so do
  the elements of a node that is no object.
-/

namespace Docstore

/-! ### Populated entities -/

namespace Field

mutual

/-- The field is no reference and has none below it, and every object declares a member. -/
def Populated : Field → Prop
  | .object members => members ≠ [] ∧ MembersPopulated members
  | .objectArray members => members ≠ [] ∧ MembersPopulated members
  | .reference _ => False
  | _ => True

/-- The fields of these members are populated. -/
def MembersPopulated : List (String × Field) → Prop
  | [] => True
  | (_, field) :: rest => Populated field ∧ MembersPopulated rest

end

theorem MembersPopulated.of_get? {members : Members} (h : MembersPopulated members) {key : String}
    {f : Field} (hget : members.get? key = some f) : f.Populated := by
  induction members with
  | nil => cases hget
  | cons member rest ih =>
    obtain ⟨name, g⟩ := member
    rw [Fields.get?] at hget
    split at hget
    · obtain rfl := Option.some.inj hget
      exact h.1
    · exact ih h.2 hget

theorem Populated.step? {f below : Field} {s : Segment} (h : f.Populated)
    (hstep : f.step? s = some below) : below.Populated := by
  cases f with
  | scalar t => cases hstep
  | reference entity => cases h
  | object members =>
    cases s with
    | name key => exact h.2.of_get? hstep
    | _ => cases hstep
  | scalarArray t => cases s <;> cases hstep <;> trivial
  | objectArray members => cases s <;> cases hstep <;> exact h

/-- Below a populated field every field is populated. -/
theorem Populated.follow? {f g : Field} {p : Path} (h : f.Populated)
    (hfollow : f.follow? p = some g) : g.Populated := by
  induction p generalizing f with
  | nil =>
    obtain rfl := Option.some.inj hfollow
    exact h
  | cons s rest ih =>
    obtain ⟨below, hstep, hbelow⟩ := Option.bind_eq_some_iff.1 hfollow
    exact ih (h.step? hstep) hbelow

end Field

/-- No field of the entity is a reference, and the document and every object declare a member. -/
def Entity.Populated (e : Entity) : Prop := (Field.object e.members).Populated

/-! ### Leaves -/

/-- The node is an object, or an element that is one. -/
def Node.isObject : Node → Bool
  | .field (.object _) => true
  | .objectElement _ => true
  | _ => false

namespace Cursor

/-- A way down from a cursor to a leaf: first members of objects and elements of arrays. -/
structure LeadsToLeaf (c : Cursor) (way : Path) : Prop where
  reaches : ∃ leaf, c.follow? way = some leaf ∧ leaf.node.isLeaf = true
  labels : way.labels = way
  /-- Below an array of objects the way goes through the elements. -/
  overlaps : c.node.isObject = false → way.overlaps [.any] = true

theorem LeadsToLeaf.cons {c below : Cursor} {s : Segment} {way : Path}
    (hstep : c.step? s = some below) (h : below.LeadsToLeaf way) (hs : stepLabel s = s)
    (hany : c.node.isObject = false → s = .any) : c.LeadsToLeaf (s :: way) where
  reaches := by
    obtain ⟨leaf, hfollow, hleaf⟩ := h.reaches
    exact ⟨leaf, by rw [follow?, hstep]; exact hfollow, hleaf⟩
  labels := by
    rw [Path.labels, List.map_cons, hs]
    exact congrArg (s :: ·) h.labels
  overlaps hnode := by
    rw [hany hnode]
    cases way <;> rfl

/-- There is a leaf at or below every populated field. -/
theorem exists_leadsToLeaf : ∀ (f : Field) (trail : List Step), f.Populated →
    ∃ way, LeadsToLeaf ⟨.field f, trail⟩ way
  | .scalar t, trail, _ => ⟨[], ⟨⟨_, rfl, rfl⟩, rfl, fun _ => rfl⟩⟩
  | .scalarArray t, trail, _ => ⟨[], ⟨⟨_, rfl, rfl⟩, rfl, fun _ => rfl⟩⟩
  | .reference entity, trail, h => h.elim
  | .object [], trail, h => absurd rfl h.1
  | .objectArray [], trail, h => absurd rfl h.1
  | .object ((key, f) :: rest), trail, h => by
    obtain ⟨way, hway⟩ := exists_leadsToLeaf f _ h.2.1
    exact ⟨.name key :: way, .cons (if_pos rfl) hway rfl nofun⟩
  | .objectArray ((key, f) :: rest), trail, h => by
    obtain ⟨way, hway⟩ := exists_leadsToLeaf f _ h.2.1
    refine ⟨.any :: .name key :: way, .cons rfl (.cons ?_ hway rfl nofun) rfl fun _ => rfl⟩
    exact if_pos rfl

/-- There is a leaf at or below every populated node except the elements of simple values. -/
theorem exists_leadsToLeaf_of_populated {c : Cursor} (hc : c.node.asField.Populated)
    (helement : ∀ t, c.node ≠ .scalarElement t) : ∃ way, c.LeadsToLeaf way := by
  obtain ⟨node, trail⟩ := c
  cases node with
  | field f => exact exists_leadsToLeaf f trail hc
  | scalarElement t => exact absurd rfl (helement t)
  | objectElement members =>
    cases members with
    | nil => exact absurd rfl hc.1
    | cons member rest =>
      obtain ⟨key, f⟩ := member
      obtain ⟨way, hway⟩ := exists_leadsToLeaf f _ hc.2.1
      exact ⟨.name key :: way, .cons (if_pos rfl) hway rfl nofun⟩

/-- Elements of simple values are found below arrays of simple values only. -/
theorem isLeaf_of_step?_eq_scalarElement {c c' : Cursor} {s : Segment} {t : ScalarType}
    (hstep : c.step? s = some c') (hnode : c'.node = .scalarElement t) : c.node.isLeaf = true := by
  obtain ⟨node, trail⟩ := c
  cases s with
  | name key =>
    have hfield : ∀ {i members}, findMember? node trail key i members ≠ some c' := by
      intro i members
      induction members generalizing i with
      | nil => nofun
      | cons member rest ih =>
        obtain ⟨name, f⟩ := member
        rw [findMember?]
        split
        · intro h
          obtain rfl := Option.some.inj h
          cases hnode
        · exact ih
    exact absurd hstep hfield
  | _ =>
    rcases node with (_ | _ | _ | _ | _) | _ | _
    case field.scalarArray => rfl
    case field.objectArray =>
      obtain rfl := Option.some.inj hstep
      cases hnode
    all_goals cases hstep

end Cursor

namespace Entity

variable {e : Entity} {p : Path} {c : Cursor}

theorem mem_leaves_of_resolve? (h : e.resolve? p = some c) (hc : c.node.isLeaf = true) :
    p.labels ∈ e.leaves := by
  have hpath : c.path = p.labels := Cursor.path_of_follow? h
  rcases mem_fields_of_resolve? h with rfl | hmem
  · cases hc
  · exact hpath ▸ List.mem_map_of_mem (List.mem_filter.2 ⟨hmem, hc⟩)

/-- The array above an element of simple values is a leaf. -/
theorem exists_leaf_above_element {t : ScalarType} (h : e.resolve? p = some c)
    (hc : c.node = .scalarElement t) :
    ∃ (above : Path) (s : Segment), p = above ++ [s] ∧ above.labels ∈ e.leaves := by
  rcases List.eq_nil_or_concat p with rfl | ⟨above, s, rfl⟩
  · obtain rfl := Option.some.inj h
    cases hc
  · rw [List.concat_eq_append, resolve?, Cursor.follow?_append] at h
    obtain ⟨array, harray, h⟩ := Option.bind_eq_some_iff.1 h
    obtain ⟨element, hstep, h⟩ := Option.bind_eq_some_iff.1 h
    obtain rfl := Option.some.inj h
    exact ⟨above, s, List.concat_eq_append,
      mem_leaves_of_resolve? harray (Cursor.isLeaf_of_step?_eq_scalarElement hstep hc)⟩

/-- Every node of a populated entity overlaps a leaf. If it is no object, the elements below it,
should there be any, overlap that leaf too. -/
theorem exists_leaf_of_resolve? (he : e.Populated) (h : e.resolve? p = some c) :
    ∃ leaf ∈ e.leaves, leaf.labels = leaf ∧ leaf.overlaps p.labels = true ∧
      (c.node.isObject = false → leaf.overlaps (p.labels ++ [.any]) = true) := by
  by_cases helement : ∃ t, c.node = .scalarElement t
  · obtain ⟨t, ht⟩ := helement
    obtain ⟨above, s, rfl, hmem⟩ := exists_leaf_above_element h ht
    refine ⟨Path.labels above, hmem, Path.labels_labels _, ?_, fun _ => ?_⟩
    · rw [Path.labels_append]
      exact Path.overlaps_self_append _ _
    · rw [Path.labels_append, List.append_assoc]
      exact Path.overlaps_self_append _ _
  · have hpopulated : c.node.asField.Populated := by
      refine Field.Populated.follow? he (p := p) ?_
      rw [← resolve?_asField, h]
      rfl
    obtain ⟨way, ⟨leaf, hway, hleaf⟩, hlabels, hany⟩ :=
      Cursor.exists_leadsToLeaf_of_populated hpopulated fun t ht => helement ⟨t, ht⟩
    have hresolve : e.resolve? (p ++ way) = some leaf := by
      rw [resolve?, Cursor.follow?_append]
      exact Option.bind_eq_some_iff.2 ⟨c, h, hway⟩
    have hpath : Path.labels (p ++ way) = p.labels ++ way := by rw [Path.labels_append, hlabels]
    refine ⟨_, mem_leaves_of_resolve? hresolve hleaf, Path.labels_labels _, ?_, fun hnode => ?_⟩
    · rw [hpath, Path.overlaps_comm]
      exact Path.overlaps_self_append _ _
    · rw [hpath, Path.overlaps_append_left]
      exact hany hnode

end Entity

end Docstore
