import Docstore.Proofs.Record.NormalForm
import Docstore.Proofs.Record.Saving
import Docstore.Proofs.Scalar.Legible

/-!
# Which records can be read back

* `Entity.exists_decode_iff_read` : a stored document decodes when each of its simple values does;
* `Entity.exists_decode_iff_legible` : which documents those are.
-/

namespace Docstore

namespace Json

theorem WellFormed.step? {v w : Json} {s : Segment} (hv : v.WellFormed) (h : v.step? s = some w) :
    w.WellFormed := by
  cases s with
  | name key =>
    cases v with
    | object members => exact hv.2.of_mem (Fields.mem_of_get?_eq_some h)
    | _ => cases h
  | index i =>
    cases v with
    | array items => exact AllWellFormed.getElem? hv h
    | _ => cases h
  | any => cases h

theorem WellFormed.follow? {v w : Json} {p : Path} (hv : v.WellFormed)
    (h : v.follow? p = some w) : w.WellFormed := by
  induction p generalizing v with
  | nil =>
    obtain rfl := Option.some.inj h
    exact hv
  | cons s rest ih =>
    obtain ⟨next, hnext, h⟩ := Option.bind_eq_some_iff.1 h
    exact ih (hv.step? hnext) h

end Json

namespace Entity

variable {e : Entity} {m : Mapper} {d : Json} {r : Record}

/-- The simple values of a record are the stored forms of those of its document. -/
theorem storesLeaf_encodeAs_iff (h : m.encodeAs e d = .ok r) {p : Path} {t : ScalarType}
    {b : Bson} :
    e.StoresLeaf r p t b ↔ ∃ v c, e.typeAt? p = some t ∧ d.follow? p = some v ∧
      t.cast v = .ok c ∧ b = c.storedAs (m.isIdPath p) := by
  have hencodes := encodes_of_encodeAs h
  constructor
  · intro hleaf
    obtain ⟨v, hv, hb⟩ := hencodes.exists_follow? (storesLeaf_iff.1 hleaf)
    obtain ⟨c, hc, rfl⟩ := Mapper.encodeScalar_eq_ok_iff.1 hb.encodeScalar_eq
    exact ⟨v, c, hleaf.1, hv, hc, rfl⟩
  · rintro ⟨v, c, ht, hv, hc, rfl⟩
    obtain ⟨b, hb, hstored⟩ := hencodes.follow? (follow?_of_typeAt? ht rfl) hv
    obtain ⟨c', hc', rfl⟩ := Mapper.encodeScalar_eq_ok_iff.1 hstored.encodeScalar_eq
    obtain rfl := Except.ok.inj (hc.symm.trans hc')
    exact ⟨ht, hb⟩

/-- A stored document decodes when each of its simple values can be read. -/
theorem exists_decode_iff_read (he : e.Distinct) (h : m.encodeAs e d = .ok r) :
    (∃ j, e.decode r = .ok j) ↔ ∀ p t b, e.StoresLeaf r p t b → ∃ j, t.read b = .ok j := by
  constructor
  · rintro ⟨j, hj⟩ p t b hleaf
    exact Field.read_of_decodeMember (storesLeaf_iff.1 hleaf) rfl (decode_eq_ok_iff.1 hj)
  · intro hread
    obtain ⟨leaf, hleaf⟩ := exists_leaf hread
    exact ⟨_, decode_eq_ok_iff.2 ((encodes_of_encodeAs h).decodeMember_eq he fun p t b hreach =>
      hleaf p t b (storesLeaf_iff.2 hreach))⟩

/-- The record of a document can be decoded exactly when every simple value of the document is
legible: a truth value unless it is the identifier, a double unless it is not finite, a date
unless it is outside the years 0 to 9999, and a number as identifier unless its text is that of
an object identifier. Values of the other types always are. -/
theorem exists_decode_iff_legible (he : e.Distinct) (hd : d.WellFormed)
    (h : m.encodeAs e d = .ok r) :
    (∃ j, e.decode r = .ok j) ↔
      ∀ p t v c, e.typeAt? p = some t → d.follow? p = some v → t.cast v = .ok c →
        c.Legible (m.isIdPath p) := by
  rw [exists_decode_iff_read he h]
  constructor
  · intro hread p t v c ht hv hc
    rw [← ScalarType.exists_read_storedAs_iff (hd.follow? hv) hc]
    exact hread p t _ ((storesLeaf_encodeAs_iff h).2 ⟨v, c, ht, hv, hc, rfl⟩)
  · intro hlegible p t b hleaf
    obtain ⟨v, c, ht, hv, hc, rfl⟩ := (storesLeaf_encodeAs_iff h).1 hleaf
    exact (ScalarType.exists_read_storedAs_iff (hd.follow? hv) hc).2 (hlegible p t v c ht hv hc)

/-- A reading with a number as identifier, which is stored as text. -/
theorem exists_decode_iff_legible_reading :
    let e : Entity := ⟨"reading", [("objectType", .scalar .string), ("_id", .scalar .integer),
      ("taken", .scalar .date), ("values", .scalarArray .double), ("valid", .scalar .boolean)]⟩
    let m : Mapper := { entities := [("reading", e)] }
    let d : Json := .object [("objectType", .string "reading"), ("_id", .int 7), ("taken", .int 0),
      ("values", .array [.double .one, .null]), ("valid", .bool true)]
    let r : Record := [("objectType", .string "reading"), ("_id", .string "7"), ("taken", .date 0),
      ("values", .array [.double (.finite .one), .null]), ("valid", .bool true)]
    e.Distinct ∧ d.WellFormed ∧ m.encodeAs e d = .ok r ∧
      ∀ p t v c, e.typeAt? p = some t → d.follow? p = some v → t.cast v = .ok c →
        c.Legible (m.isIdPath p) := by
  intro e m d r
  have he : e.Distinct := by
    simp [e, Distinct, Fields.Distinct, Fields.keys, Field.MembersDistinct, Field.DistinctNames]
  have hd : d.WellFormed := by
    simp [d, Json.WellFormed, Json.MembersWellFormed, Json.AllWellFormed, Json.IntInRange,
      Fields.Distinct, Fields.keys]
  have hr : m.encodeAs e d = .ok r := rfl
  exact ⟨he, hd, hr, (exists_decode_iff_legible he hd hr).1 ⟨_, rfl⟩⟩

/-- A truth value as identifier is stored as its text, which is read as no truth value. -/
theorem decode_boolean_identifier :
    let e : Entity := ⟨"flag", [("objectType", .scalar .string), ("_id", .scalar .boolean)]⟩
    let m : Mapper := { entities := [("flag", e)] }
    let d : Json := .object [("objectType", .string "flag"), ("_id", .bool true)]
    let r : Record := [("objectType", .string "flag"), ("_id", .string "true")]
    e.Distinct ∧ d.WellFormed ∧ m.encodeAs e d = .ok r ∧
      e.decode r = .error (.conversion .decode (.stored (.string "true") .boolean)) := by
  intro e m d r
  refine ⟨?_, ?_, rfl, rfl⟩
  · simp [e, Distinct, Fields.Distinct, Fields.keys, Field.MembersDistinct, Field.DistinctNames]
  · simp [d, Json.WellFormed, Json.MembersWellFormed, Fields.Distinct, Fields.keys]

end Entity

end Docstore
