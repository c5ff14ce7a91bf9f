import Docstore.Proofs.Path.Overlap
import Docstore.Proofs.Query.Membership
import Docstore.Proofs.Record.NormalForm

/-!
# Three walks along a path

A path is followed in a record, in the relaxed form of the record by the chain of a script, and in
the declaration of the entity. Each walk has its own steps, and what one step preserves carries over
to whole paths: `Bson.step?_toJson` for the relaxed form, `Mapper.Encodes.of_step?` for the
declaration.

* `Bson.follow?_toJson` : what is stored at a path stands there in the relaxed form;
* `valueAt_agrees` : a value that is found in a record is the one that scripts read, and its path
  leads to a field of the entity unless it goes on below a free-form value.

The other way round scripts find more than is stored: a date has a member in its relaxed form.
-/

namespace Docstore

variable {b c found : Bson} {s : Segment} {p : Path}

/-! ### Relaxed forms -/

namespace Bson

theorem step?_toJson (h : b.step? s = some c) : b.toJson.step? s = some c.toJson := by
  cases s with
  | name key =>
    cases b with
    | document fields =>
      have hget : Fields.get? key fields = some c := h
      rw [toJson_document, Json.step?, Json.get?, Fields.get?_map, hget]
      rfl
    | _ => cases h
  | index i =>
    cases b with
    | array items =>
      have hget : items[i]? = some c := h
      rw [toJson_array, Json.step?, Json.at?, List.getElem?_map, hget]
      rfl
    | _ => cases h
  | any => cases b <;> cases h

/-- What is stored at a path stands there in the relaxed form. -/
theorem follow?_toJson (h : Bson.follow? p b = some found) :
    b.toJson.follow? p = some found.toJson := by
  induction p generalizing b with
  | nil =>
    obtain rfl := Option.some.inj h
    rfl
  | cons s rest ih =>
    rw [follow?_cons] at h
    obtain ⟨c, hc, hrest⟩ := Option.bind_eq_some_iff.1 h
    exact Option.bind_eq_some_iff.2 ⟨c.toJson, step?_toJson hc, ih hrest⟩

/-- A path that leads to a stored value has no wildcards. -/
theorem isConcrete_of_follow? (h : Bson.follow? p b = some found) : p.IsConcrete := by
  induction p generalizing b with
  | nil => exact List.not_mem_nil
  | cons s rest ih =>
    rw [follow?_cons] at h
    obtain ⟨c, hc, hrest⟩ := Option.bind_eq_some_iff.1 h
    have hs : s ≠ .any := by
      rintro rfl
      cases b <;> cases hc
    exact Path.isConcrete_cons_iff.2 ⟨hs, ih hrest⟩

end Bson

theorem valueAt_eq_ok_iff {r : Record} :
    valueAt r p = .ok b ↔ p ≠ [] ∧ Bson.follow? p (.document r) = some b := by
  unfold valueAt
  cases p with
  | nil => simp
  | cons s rest => cases Bson.follow? (s :: rest) (.document r) <;> simp

/-! ### Agreement -/

/-- A proper beginning of the path leads to a simple field or a simple element of free-form
values. -/
def Entity.FreeFormAbove (e : Entity) (p : Path) : Prop :=
  ∃ q, q <+: p ∧ q ≠ p ∧ e.typeAt? q = some .any

theorem Entity.freeFormAbove_iff {e : Entity} :
    e.FreeFormAbove p ↔ (Field.object e.members).FreeFormAbove p := by
  simp only [FreeFormAbove, Field.FreeFormAbove, typeAt?_eq_some_iff]

theorem Entity.exists_resolve?_iff {e : Entity} :
    (∃ c, e.resolve? p = some c) ↔ ∃ g, (Field.object e.members).follow? p = some g := by
  rw [← resolve?_asField]
  cases e.resolve? p <;> simp

/-- A value that is found at a path of a record is what the chain of the path leads to in the
relaxed form of the record, whatever the variables are. In the record of a document the path leads
to a field or an element of the entity, or a proper beginning of it leads to free-form values, but
never both. -/
theorem valueAt_agrees {r : Record} (h : valueAt r p = .ok b) :
    (∃ ref, fieldRef p = .ok ref ∧
      ∀ env, ref.lookup env (Bson.toJson (.document r)) = .ok (some b.toJson)) ∧
    ∀ (m : Mapper) (e : Entity) (d : Json), m.encodeAs e d = .ok r →
      ((∃ c, e.resolve? p = some c) ∨ e.FreeFormAbove p) ∧
        ¬ ((∃ c, e.resolve? p = some c) ∧ e.FreeFormAbove p) := by
  obtain ⟨-, hb⟩ := valueAt_eq_ok_iff.1 h
  constructor
  · obtain ⟨ref, href⟩ := fieldRef_of_not_mem (Bson.isConcrete_of_follow? hb)
    refine ⟨ref, href, fun env => ?_⟩
    rw [FieldRef.lookup_of_ofPath? (ofPath?_of_fieldRef href), Bson.follow?_toJson hb]
  · intro m e d hd
    rw [Entity.exists_resolve?_iff, Entity.freeFormAbove_iff]
    refine ⟨((Entity.encodes_of_encodeAs hd).of_follow? hb).imp_left ?_, ?_⟩
    · rintro ⟨g, found, hg, -⟩
      exact ⟨g, hg⟩
    · rintro ⟨⟨g, hg⟩, habove⟩
      rw [habove.follow?_eq_none] at hg
      cases hg

/-- The author of a note, which is free-form, in a row. -/
theorem valueAt_agrees_notes :
    let e : Entity := ⟨"table", [("rows", .objectArray [("size", .scalar .integer),
      ("notes", .scalarArray .any)])]⟩
    let m : Mapper := { entities := [("table", e)] }
    let d : Json := .object [("rows", .array [.null, .object [("size", .int 3),
      ("notes", .array [.object [("by", .string "ann")]])]])]
    let r : Record := [("rows", .array [.null, .document [("size", .int64 3),
      ("notes", .array [.document [("by", .string "ann")]])]])]
    let p : Path := [.name "rows", .index 1, .name "notes", .index 0, .name "by"]
    m.encodeAs e d = .ok r ∧ valueAt r p = .ok (.string "ann") ∧ e.resolve? p = none ∧
      e.FreeFormAbove p ∧ ∃ ref, fieldRef p = .ok ref ∧
        ∀ env, ref.lookup env (Bson.toJson (.document r)) = .ok (some (.string "ann")) := by
  intro e m d r p
  have hr : m.encodeAs e d = .ok r := rfl
  have hp : valueAt r p = .ok (.string "ann") := rfl
  have hnone : e.resolve? p = none := rfl
  obtain ⟨hlookup, hdeclared⟩ := valueAt_agrees hp
  have habove : e.FreeFormAbove p := by
    refine (hdeclared m e d hr).1.resolve_left ?_
    rw [hnone]
    simp
  exact ⟨hr, hp, hnone, habove, hlookup⟩

end Docstore
