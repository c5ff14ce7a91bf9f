import Docstore.Proofs.Record.Replacing

/-!
# What a record loses when it is saved again

A record is read, and the document replaces it. Decoding leaves out what is not stored as declared,
and a merge brings back what is not declared, so a name is lost where it falls between the two.

* `Members.get?_merge_ne_none_iff` : which names of a document are there again after the merge;
* `Mapper.keys_of_replace_decode` : the same at every depth of declared objects;
* `Mapper.keys_lost_by_replace_decode` : names that are lost.
-/

namespace Docstore

/-- After a document was read and its new fields were merged with it, a name is there again unless
it is declared for values of another shape. -/
theorem Members.get?_merge_ne_none_iff {declared : Members} {r x : Record}
    {js : List (String × Json)} (hd : declared.Distinct) (hr : r.Distinct)
    (hjs : Field.decodeMembers declared r = .ok js) (hkeys : x.keys = Fields.keys js)
    {name : String} {b : Bson} (hb : r.get? name = some b) :
    Fields.get? name (merge declared r x) ≠ none ↔
      ∀ f, declared.get? name = some f → f.Fits b := by
  rw [get?_merge hr, hb]
  cases hf : Fields.get? name declared with
  | none => simp
  | some f =>
    -- The name is there when it is in the document that was read.
    have hread := Field.get?_decodeMembers_iff hd hjs hf hb
    rw [Option.elim_some, ne_eq, Option.map_eq_none_iff, Fields.get?_eq_none_iff_of_keys hkeys]
    constructor
    · intro hsome g hg
      obtain rfl := Option.some.inj hg
      obtain ⟨v, hv⟩ := Option.ne_none_iff_exists'.1 hsome
      obtain ⟨g, hg, -, hmember⟩ := Field.get?_of_decodeMembers hd hjs hv
      obtain rfl := Option.some.inj (hf.symm.trans hg)
      exact hread.1 ⟨v, hv, hb ▸ hmember⟩
    · intro hfits
      obtain ⟨v, hv, -⟩ := hread.2 (hfits f rfl)
      rw [hv]
      exact Option.some_ne_none v

namespace Mapper

variable {m : Mapper}

open Docstore.Field in
/-- A stored value is read, what was read is encoded, and the two are merged. Where names lead to a
document in the old value, they lead to a document with the names that are not left out. -/
theorem Encodes.follow?_mergeValue {names : List String} {path : Path} {f : Field} {b c : Bson}
    {v : Json} (hc : m.Encodes path f v c) (hv : f.decodeMember (some b) = .ok (some v))
    (hd : f.DistinctNames) (hb : b.WellFormed) {members : Members} {sub : Record}
    (hf : f.follow? (Path.ofNames names) = some (.object members))
    (hsub : Bson.follow? (Path.ofNames names) b = some (.document sub)) :
    ∃ sub', Bson.follow? (Path.ofNames names) (f.mergeValue (some b) c) = some (.document sub') ∧
      ∀ key b, Fields.get? key sub = some b →
        (Fields.get? key sub' ≠ none ↔ ∀ f, members.get? key = some f → f.Fits b) := by
  obtain ⟨ms, rfl⟩ := exists_object_of_follow? hf
  obtain ⟨r, rfl⟩ := Bson.exists_document_of_follow? hsub
  obtain ⟨js, hjs, rfl⟩ := exists_of_decodeMember_document hd.1 hv
  induction names generalizing path ms r js c with
  | nil =>
    obtain rfl : ms = members := Field.object.inj (Option.some.inj hf)
    obtain rfl : r = sub := Bson.document.inj (Option.some.inj hsub)
    cases hc with
    | object hkeys _ _ =>
      exact ⟨_, rfl, fun key b => Members.get?_merge_ne_none_iff hd.1 hb.1 hjs hkeys⟩
  | cons name rest ih =>
    obtain ⟨f, hget, hf⟩ := Option.bind_eq_some_iff.1 hf
    obtain ⟨b, hget', hsub⟩ := Option.bind_eq_some_iff.1 hsub
    have hdeclared : Fields.get? name ms = some f := hget
    obtain ⟨nested, rfl⟩ := exists_object_of_follow? hf
    obtain ⟨old, rfl⟩ := Bson.exists_document_of_follow? hsub
    -- The inner document has the declared shape, so that it is read and encoded.
    obtain ⟨v, hjv, hv⟩ := (get?_decodeMembers_iff hd.1 hjs hdeclared hget').2 trivial
    have hdistinct := hd.2.of_mem (Fields.mem_of_get?_eq_some hdeclared)
    obtain ⟨js', hjs', rfl⟩ := exists_of_decodeMember_document hdistinct.1 hv
    cases hc with
    | @object _ _ _ x hkeys _ hbelow =>
      obtain ⟨c, hxc⟩ := Fields.exists_get?_of_keys hkeys.symm hjv
      obtain ⟨sub', hsub', hiff⟩ := ih nested hdistinct hf old
        (hb.of_get? hget') hsub js' hjs'
        (hbelow name _ _ c hdeclared hjv hxc) hv
      refine ⟨sub', Option.bind_eq_some_iff.2 ⟨_, ?_, hsub'⟩, hiff⟩
      rw [Members.get?_merge hb.1, hdeclared, hxc, hget']
      rfl

end Mapper

/-- Text is read as the same text, unless it is read as a number of any size. -/
theorem ScalarType.eq_of_read_string {t : ScalarType} {s s' : String}
    (h : t.read (.string s) = .ok (.string s')) (hdecimal : t ≠ .bigDecimal)
    (hinteger : t ≠ .bigInteger) : s = s' := by
  have hjson : t.json? (.string s) = some (.string s') := (read_eq_ok_iff (by simp) (by simp)).1 h
  cases t with
  | bigDecimal => exact absurd rfl hdecimal
  | bigInteger => exact absurd rfl hinteger
  | string => exact Json.string.inj (Option.some.inj hjson)
  | date => exact Json.string.inj (Option.some.inj hjson)
  | any => exact Json.string.inj (Option.some.inj hjson)
  | boolean => cases hjson
  | integer =>
    obtain ⟨n, -, hn⟩ := Option.map_eq_some_iff.1 hjson
    cases hn
  | double =>
    obtain ⟨x, -, hx⟩ := Option.bind_eq_some_iff.1 hjson
    cases x <;> cases hx

namespace Mapper

variable {m : Mapper} {e : Entity} {d : Json} {r r' : Record} {name : String}

/-- A document that is read from a record is of the entity of the record, unless the name of the
entity is declared to be a number of any size. -/
theorem entityNameOf_eq_of_decode {js : List (String × Json)} {name' : String}
    (hdistinct : e.Distinct) (hname : m.entityNameOfRecord r = .ok name)
    (hjs : Field.decodeMembers e.members r = .ok js)
    (hname' : m.entityNameOf (.object js) = .ok name')
    (htype : ∀ t, e.members.get? m.options.entityField = some (.scalar t) →
      t ≠ .bigDecimal ∧ t ≠ .bigInteger) : name = name' := by
  rw [entityNameOfRecord_eq_ok_iff] at hname
  rw [entityNameOf_eq_ok_iff] at hname'
  obtain ⟨f, hf, hstored, hmember⟩ := Field.get?_of_decodeMembers hdistinct.1 hjs hname'
  rw [hname] at hmember
  have hfits := Field.fits_of_decodeMember hstored hmember
  cases f with
  | scalar t =>
    obtain ⟨j, hj, heq⟩ := Field.decodeMember_scalar.1 hmember
    obtain rfl := Option.some.inj heq
    obtain ⟨hdecimal, hinteger⟩ := htype t hf
    exact ScalarType.eq_of_read_string hj hdecimal hinteger
  | reference entity => exact absurd rfl (hstored entity)
  | _ => cases hfits

/-- A record is read and replaced by the document that was read. The document is of the same
entity, unless the name of the entity is declared to be a number of any size. If it is, each name
of the record, and of its documents at declared objects, is there again exactly when the value fits
every declaration of the name: what is lost is what stands under the name of a reference, and what
is neither null nor of the shape that is declared. -/
theorem keys_of_replace_decode (hpolicy : m.policy = .keep) (hr : (Bson.document r).WellFormed)
    (hname : m.entityNameOfRecord r = .ok name) (he : m.entity name = .ok e)
    (hdistinct : e.Distinct) (hd : m.decode r = .ok d) (hr' : m.replace d r = .ok r') :
    ((∀ t, e.members.get? m.options.entityField = some (.scalar t) →
        t ≠ .bigDecimal ∧ t ≠ .bigInteger) → m.entityNameOf d = .ok name) ∧
    (m.entityNameOf d = .ok name → ∀ (names : List String) (members : Members) (sub : Record),
      (Field.object e.members).follow? (Path.ofNames names) = some (.object members) →
        Bson.follow? (Path.ofNames names) (.document r) = some (.document sub) →
          ∃ sub', Bson.follow? (Path.ofNames names) (.document r') = some (.document sub') ∧
            ∀ key b, Fields.get? key sub = some b →
              (Fields.get? key sub' ≠ none ↔ ∀ f, members.get? key = some f → f.Fits b)) := by
  obtain ⟨name₁, e₁, hname₁, he₁, hd⟩ := decode_eq_ok_iff.1 hd
  obtain rfl := Except.ok.inj (hname.symm.trans hname₁)
  obtain rfl := Except.ok.inj (he.symm.trans he₁)
  obtain ⟨name₂, e₂, x, hname₂, he₂, hx, rfl⟩ := (replace_eq_ok_iff hpolicy).1 hr'
  have hread := Entity.decode_eq_ok_iff.1 hd
  obtain ⟨js, hjs, rfl⟩ := Field.exists_of_decodeMember_document hdistinct.1 hread
  refine ⟨fun htype => ?_, fun hsame names members sub hf hsub => ?_⟩
  · obtain rfl := entityNameOf_eq_of_decode hdistinct hname hjs hname₂ htype
    exact hname₂
  · obtain rfl := Except.ok.inj (hsame.symm.trans hname₂)
    obtain rfl := Except.ok.inj (he.symm.trans he₂)
    have hencodes := Entity.encodes_of_encodeAs hx
    exact hencodes.follow?_mergeValue hread hdistinct hr hf hsub

/-- A team whose lead is a reference and whose place is stored as text where an object is declared;
its names that are not declared stay, also inside the object that is stored as one. -/
theorem keys_of_replace_decode_team :
    let e : Entity := ⟨"team", [("objectType", .scalar .string), ("lead", .reference "user"),
      ("place", .object [("city", .scalar .string)]), ("meta", .object [("tags",
      .scalarArray .string), ("open", .scalar .boolean)])]⟩
    let m : Mapper := { entities := [("team", e)] }
    let r : Record := [("seen", .bool true), ("objectType", .string "team"), ("place",
      .string "Oslo"), ("meta", .document [("hits", .int64 3), ("tags", .bool true), ("open",
      .null)]), ("lead", .string "Ann")]
    let d : Json := .object [("objectType", .string "team"), ("meta", .object [("open", .null)])]
    let r' : Record := [("objectType", .string "team"), ("meta", .document [("open", .null),
      ("hits", .int64 3)]), ("seen", .bool true)]
    m.decode r = .ok d ∧ m.replace d r = .ok r' ∧ m.entityNameOf d = .ok "team" ∧
      ∀ (names : List String) (members : Members) (sub : Record),
        (Field.object e.members).follow? (Path.ofNames names) = some (.object members) →
          Bson.follow? (Path.ofNames names) (.document r) = some (.document sub) →
            ∃ sub', Bson.follow? (Path.ofNames names) (.document r') = some (.document sub') ∧
              ∀ key b, Fields.get? key sub = some b →
                (Fields.get? key sub' ≠ none ↔ ∀ f, members.get? key = some f → f.Fits b) := by
  intro e m r d r'
  have hdistinct : e.Distinct := by
    simp [e, Entity.Distinct, Fields.Distinct, Fields.keys, Field.MembersDistinct,
      Field.DistinctNames]
  have hr : (Bson.document r).WellFormed := by
    simp [r, Bson.WellFormed, Bson.FieldsWellFormed, Fields.Distinct, Fields.keys]
  have hname : m.entityNameOfRecord r = .ok "team" := rfl
  have hd : m.decode r = .ok d := by rfl
  have hr' : m.replace d r = .ok r' := by rfl
  obtain ⟨hsame, hkeys⟩ := keys_of_replace_decode rfl hr hname rfl hdistinct hd hr'
  have hentity := hsame fun t ht => by
    obtain rfl : .string = t := Field.scalar.inj (Option.some.inj ht)
    exact ⟨by simp, by simp⟩
  exact ⟨hd, hr', hentity, hkeys hentity⟩

/-- Names are lost: that of a reference and that of an object that is stored as text; and any name
that the entity of the record does not declare but that of the document does, when the name of the
entity is read as a number. -/
theorem keys_lost_by_replace_decode :
    (let e : Entity := ⟨"user", [("objectType", .scalar .string), ("manager", .reference "user"),
        ("address", .object [("city", .scalar .string)])]⟩
      let m : Mapper := { entities := [("user", e)] }
      let r : Record := [("objectType", .string "user"), ("manager", .string "x"),
        ("address", .string "Oslo")]
      let d : Json := .object [("objectType", .string "user")]
      let r' : Record := [("objectType", .string "user")]
      e.Distinct ∧ m.decode r = .ok d ∧ m.replace d r = .ok r' ∧
        "manager" ∈ r.keys ∧ "manager" ∉ r'.keys ∧ "address" ∈ r.keys ∧ "address" ∉ r'.keys) ∧
    (let e : Entity := ⟨"007", [("objectType", .scalar .bigInteger)]⟩
      let e' : Entity := ⟨"7", [("objectType", .scalar .string), ("seen", .scalar .boolean)]⟩
      let m : Mapper := { entities := [("007", e), ("7", e')] }
      let r : Record := [("objectType", .string "007"), ("seen", .bool true)]
      let d : Json := .object [("objectType", .string "7")]
      let r' : Record := [("objectType", .string "7")]
      e.Distinct ∧ e'.Distinct ∧ m.decode r = .ok d ∧ m.replace d r = .ok r' ∧
        "seen" ∈ r.keys ∧ "seen" ∉ r'.keys) := by
  refine ⟨⟨?_, rfl, rfl, by decide, by decide, by decide, by decide⟩, ?_, ?_, rfl, rfl, by decide,
    by decide⟩ <;>
  simp [Entity.Distinct, Fields.Distinct, Fields.keys, Field.MembersDistinct, Field.DistinctNames]

end Mapper

end Docstore
