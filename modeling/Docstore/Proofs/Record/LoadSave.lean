import Docstore.Proofs.Entity.Listing
import Docstore.Proofs.Record.Saving

/-!
# Loading and saving

A document that was loaded is saved over the record that it came from.

* `Mapper.Reloadable` : the entities whose documents can be loaded and saved;
* `Mapper.replace_eq_ok_iff`, `Mapper.decode_eq_ok_iff` : saving and loading, step by step;
* `Mapper.replace_decode` : nothing of the record is lost.
-/

namespace Docstore

namespace Mapper

variable {m : Mapper}

theorem entityNameOf_eq_ok_iff {d : Json} {name : String} :
    m.entityNameOf d = .ok name ↔ d.get? m.options.entityField = some (.string name) := by
  unfold entityNameOf
  split
  · next h => simp [h]
  · next s h => simp [h]
  · next v hv h =>
    simp only [h, reduceCtorEq, Option.some.injEq, false_iff]
    exact hv name

theorem entityNameOfRecord_eq_ok_iff {r : Record} {name : String} :
    m.entityNameOfRecord r = .ok name ↔ r.get? m.options.entityField = some (.string name) := by
  unfold entityNameOfRecord
  split
  · next h => simp [h]
  · next s h => simp [h]
  · next v hv h =>
    simp only [h, reduceCtorEq, Option.some.injEq, false_iff]
    exact hv name

/-- What a declaration has to say for documents of the entity to be loaded and saved: no field is
free-form, the field that names the entity is text and not the identifier, and an identifier
that is a simple field is text or an integer. -/
structure Reloadable (m : Mapper) (e : Entity) : Prop where
  distinct : e.Distinct
  ne_any : ∀ c ∈ e.fields, c.node.scalarType? ≠ some .any
  entityField : e.members.get? m.options.entityField = some (.scalar .string)
  entityField_ne : m.options.entityField ≠ m.options.idField
  idField : ∀ t, e.members.get? m.options.idField = some (.scalar t) → t = .string ∨ t = .integer

namespace Reloadable

variable {e : Entity} {d : Json} {r x : Record} {name : String}

theorem restorable (h : m.Reloadable e) : m.Restorable .root (.object e.members) := by
  intro p t hp
  refine ⟨?_, fun hid => ?_⟩
  · rintro rfl
    rw [← Entity.resolve?_asField] at hp
    obtain ⟨c, hc, hfield⟩ := Option.map_eq_some_iff.1 hp
    rcases Entity.mem_fields_of_resolve? hc with rfl | hmem
    · cases hfield
    · exact h.ne_any c hmem (Node.scalarType?_eq_some_iff.2 hfield)
  · obtain rfl : p = [.name m.options.idField] := by simpa [isIdPath, Path.root] using hid
    exact h.idField t (by simpa [Field.follow?, Field.step?] using hp)

/-- The name of the entity is stored as it stands in the document. -/
theorem get?_entityField (h : m.Reloadable e) (hname : m.entityNameOf d = .ok name)
    (hx : m.encodeAs e d = .ok x) : x.get? m.options.entityField = some (.string name) := by
  rw [entityNameOf_eq_ok_iff] at hname
  cases d with
  | object members =>
    obtain ⟨f, b, hf, hb, hget⟩ := get?_of_encodeMembers hx hname
    obtain rfl : .scalar .string = f := Option.some.inj (h.entityField.symm.trans hf)
    rw [encodeField] at hb
    obtain ⟨c, hc, rfl⟩ := encodeScalar_eq_ok_iff.1 hb
    obtain rfl : .string name = c := Except.ok.inj hc
    have hpath : m.isIdPath (Path.child .root (.name m.options.entityField)) = false := by
      simpa [isIdPath, Path.root, Path.child] using h.entityField_ne
    rw [hget, hpath]
    rfl
  | _ => cases hname

/-- The merged record of a document is named after the entity of the document. -/
theorem entityNameOfRecord_merge (h : m.Reloadable e) (hname : m.entityNameOf d = .ok name)
    (hx : m.encodeAs e d = .ok x) (old : Record) :
    m.entityNameOfRecord (Members.merge e.members old x) = .ok name := by
  rw [entityNameOfRecord_eq_ok_iff, Members.get?_merge_of_scalar h.entityField]
  exact h.get?_entityField hname hx

/-- The name of the entity is read as it is stored. -/
theorem entityNameOf_decode (h : m.Reloadable e)
    (hr : m.entityNameOfRecord r = .ok name) (hd : e.decode r = .ok d) :
    m.entityNameOf d = .ok name := by
  rw [entityNameOfRecord_eq_ok_iff] at hr
  obtain ⟨js, hjs, hd⟩ := bind_eq_ok_iff.1 hd
  have hdistinct := (Field.keys_sublist_of_decodeMembers hjs).nodup h.distinct.1
  rw [Fields.ofList_eq_self hdistinct] at hd
  obtain rfl : .object js = d := Except.ok.inj hd
  have hread : (Field.scalar .string).decodeMember (r.get? m.options.entityField) =
      .ok (some (.string name)) := by
    rw [hr]
    rfl
  have hmem := (Field.mem_of_decodeMembers hjs).2
    ⟨_, Fields.mem_of_get?_eq_some h.entityField, nofun, hread⟩
  exact entityNameOf_eq_ok_iff.2 ((Fields.get?_eq_some_iff_mem hdistinct).2 hmem)

end Reloadable

/-- A replacement is an encoded document merged with the old record. -/
theorem replace_eq_ok_iff (hpolicy : m.policy = .keep) {d : Json} {old r : Record} :
    m.replace d old = .ok r ↔ ∃ name e x, m.entityNameOf d = .ok name ∧ m.entity name = .ok e ∧
      m.encodeAs e d = .ok x ∧ Members.merge e.members old x = r := by
  simp only [replace, bind_eq_ok_iff, preserve, hpolicy, pure_eq_ok_iff]
  constructor
  · rintro ⟨name, hname, e, he, x, hx, hr⟩
    exact ⟨name, e, x, hname, he, hx, hr⟩
  · rintro ⟨name, e, x, hname, he, hx, hr⟩
    exact ⟨name, hname, e, he, x, hx, hr⟩

theorem decode_eq_ok_iff {r : Record} {d : Json} :
    m.decode r = .ok d ↔ ∃ name e, m.entityNameOfRecord r = .ok name ∧ m.entity name = .ok e ∧
      e.decode r = .ok d := by
  simp only [decode, bind_eq_ok_iff]
  constructor
  · rintro ⟨name, hname, e, he, hd⟩
    exact ⟨name, e, hname, he, hd⟩
  · rintro ⟨name, e, hname, he, hd⟩
    exact ⟨name, hname, e, he, hd⟩

/-- A document that was loaded from its record can be saved over it. It is then loaded again as
it was, the record is the same up to the order of names and declared nulls, and every value at a
path that is not declared stays. -/
theorem replace_decode {d₀ d : Json} {old r : Record} {name : String} {e : Entity}
    (hpolicy : m.policy = .keep) (hd₀ : d₀.WellFormed) (hname : m.entityNameOf d₀ = .ok name)
    (he : m.entity name = .ok e) (hreload : m.Reloadable e) (hr : m.replace d₀ old = .ok r)
    (hd : m.decode r = .ok d)
    (hdecimal : ∀ p (x : Decimal), e.StoresLeaf r p .bigDecimal (.string x.text) →
      Decimal.ofText? x.text = some x) :
    ∃ r', m.replace d r = .ok r' ∧ m.decode r' = .ok d ∧
      Bson.Same (.document (Bson.fieldsWithoutNulls e.members r'))
        (.document (Bson.fieldsWithoutNulls e.members r)) ∧
      ∀ p b, e.resolve? p = none → Bson.follow? p (.document r) = some b →
        Bson.follow? p (.document r') = some b := by
  obtain ⟨name', e', x, hname', he', hx, rfl⟩ := (replace_eq_ok_iff hpolicy).1 hr
  obtain rfl : name = name' := Except.ok.inj (hname.symm.trans hname')
  obtain rfl : e = e' := Except.ok.inj (he.symm.trans he')
  have hstored := ((Entity.encodes_of_encodeAs hx).stored hd₀).opened.merge old
  generalize hmerged : Members.merge e.members old x = r at *
  have hentity : m.entityNameOfRecord r = .ok name :=
    hmerged ▸ hreload.entityNameOfRecord_merge hname hx old
  obtain ⟨name', e', hname', he', hd⟩ := decode_eq_ok_iff.1 hd
  obtain rfl : name = name' := Except.ok.inj (hentity.symm.trans hname')
  obtain rfl : e = e' := Except.ok.inj (he.symm.trans he')
  have hreads : ReadsDecimals (.object e.members) (.document r) := fun p x hreach =>
    hdecimal p x (Entity.storesLeaf_iff.2 hreach)
  -- The loaded document is encoded again, and merging it brings the undeclared names back.
  obtain ⟨b, hb, hrefreshed⟩ := hstored.encode_of_decode hreload.distinct hreload.restorable hreads
    (Entity.decode_eq_ok_iff.1 hd)
  have hname' := hreload.entityNameOf_decode hentity hd
  obtain ⟨x', hx', rfl⟩ : ∃ x', m.encodeAs e d = .ok x' ∧ .document x' = b := by
    obtain ⟨js, -, hjs⟩ := bind_eq_ok_iff.1 hd
    obtain rfl : _ = d := Except.ok.inj hjs
    rw [encodeField] at hb
    obtain ⟨x', hx', hb⟩ := bind_eq_ok_iff.1 hb
    exact ⟨x', hx', Except.ok.inj hb⟩
  refine ⟨Members.merge e.members r x', ?_, ?_, ?_, fun p b hp hfound => ?_⟩
  · exact (replace_eq_ok_iff hpolicy).2 ⟨name, e, x', hname', he, hx', rfl⟩
  · have hdecode := hrefreshed.decodeMember_eq hreload.distinct (Entity.decode_eq_ok_iff.1 hd)
    exact decode_eq_ok_iff.2 ⟨name, e, hreload.entityNameOfRecord_merge hname' hx' r, he,
      Entity.decode_eq_ok_iff.2 hdecode⟩
  · exact hrefreshed.same_withoutNulls
  · refine hrefreshed.follow?_undeclared ?_ hfound
    rw [← Entity.resolve?_asField, hp]
    rfl

/-- A record with a decimal, undeclared names at the top and in an object, and a title that is
missing. -/
theorem replace_decode_note :
    let e : Entity := ⟨"note", [("objectType", .scalar .string), ("_id", .scalar .string),
      ("title", .scalar .string), ("price", .scalar .bigDecimal),
      ("meta", .object [("open", .scalar .boolean)]),
      ("rows", .objectArray [("tag", .scalar .string)])]⟩
    let m : Mapper := { entities := [("note", e)] }
    let d₀ : Json := .object [("objectType", .string "note"), ("_id", .string "n"),
      ("price", .string "1.50"), ("meta", .object [("open", .bool true)]),
      ("rows", .array [.object [("tag", .string "x")], .null])]
    let r : Record := [("objectType", .string "note"), ("_id", .string "n"),
      ("price", .string "1.50"), ("meta", .document [("open", .bool true), ("hits", .bool false)]),
      ("rows", .array [.document [("tag", .string "x")], .null]), ("seen", .bool true)]
    let d : Json := .object [("objectType", .string "note"), ("_id", .string "n"),
      ("title", .null), ("price", .string "1.50"), ("meta", .object [("open", .bool true)]),
      ("rows", .array [.object [("tag", .string "x")], .null])]
    m.replace d₀ [("seen", .bool true), ("meta", .document [("hits", .bool false)])] = .ok r ∧
      m.decode r = .ok d ∧ ∃ r', m.replace d r = .ok r' ∧ m.decode r' = .ok d ∧
        Bson.Same (.document (Bson.fieldsWithoutNulls e.members r'))
          (.document (Bson.fieldsWithoutNulls e.members r)) ∧
        ∀ p b, e.resolve? p = none → Bson.follow? p (.document r) = some b →
          Bson.follow? p (.document r') = some b := by
  intro e m d₀ r d
  have hreload : m.Reloadable e := {
    distinct := by
      simp [e, Entity.Distinct, Fields.Distinct, Fields.keys, Field.MembersDistinct,
        Field.DistinctNames]
    ne_any := by decide
    entityField := rfl
    entityField_ne := by decide
    idField := fun t ht => .inl (Field.scalar.inj (Option.some.inj ht)).symm }
  have hd₀ : d₀.WellFormed := by
    simp [d₀, Json.WellFormed, Json.MembersWellFormed, Json.AllWellFormed, Fields.Distinct,
      Fields.keys]
  have hdecimal : ∀ p (x : Decimal), e.StoresLeaf r p .bigDecimal (.string x.text) →
      Decimal.ofText? x.text = some x := by
    rintro p x ⟨htype, hstored⟩
    obtain ⟨c, hc, htype⟩ := Option.bind_eq_some_iff.1 htype
    have hfields : ∀ c ∈ e.fields, c.node.scalarType? = some .bigDecimal →
        c.path = [.name "price"] := by
      decide
    have hprice : p.map Cursor.stepLabel = [.name "price"] := by
      rcases Entity.mem_fields_of_resolve? hc with rfl | hmem
      · cases htype
      · exact (Cursor.path_of_follow? hc).symm.trans (hfields c hmem htype)
    obtain rfl : p = [.name "price"] := by
      obtain ⟨s, rest, rfl, hs, hrest⟩ := List.map_eq_cons_iff.1 hprice
      obtain rfl := List.map_eq_nil_iff.1 hrest
      cases s <;> cases hs
      rfl
    have htext : "1.50" = x.text := Bson.string.inj (Option.some.inj hstored)
    refine (Decimal.ofText?_text_iff x).2 fun hnegative => ?_
    have hsign : "1.50".toList = '-' :: x.unsigned := by
      rw [htext, Decimal.toList_text, if_pos hnegative]
    cases hsign
  have hr : m.replace d₀ [("seen", .bool true), ("meta", .document [("hits", .bool false)])] =
      .ok r := by rfl
  have hd : m.decode r = .ok d := by rfl
  exact ⟨hr, hd, replace_decode rfl hd₀ rfl rfl hreload hr hd hdecimal⟩

end Mapper

end Docstore
