import Docstore.Proofs.Record.Positions

/-!
# The normal form of a document

A document that was encoded and is decoded again comes back in the shape of its declaration.

* `Field.normalForm`, `Entity.normalForm` : every declared member but references, in the order of
  declaration, and null where the document has none;
* `Mapper.Encodes.decodeMember_eq` : what encoding gave decodes to the normal form;
* `Entity.decode_encodeAs` : when decoding succeeds, and what it gives.
-/

namespace Docstore

namespace Field

/-- The normal form of a simple value: null, or what `leaf` has at its path. -/
def leafForm (leaf : Path → Json) (path : Path) : Json → Json
  | .null => .null
  | _ => leaf path

mutual

/-- The normal form of a value of a field at `path`, where `leaf` gives the simple values. -/
def normalForm (leaf : Path → Json) (path : Path) : Field → Json → Json
  | .scalar _, v => leafForm leaf path v
  | .object members, .object d => .object (normalMembers leaf path members d)
  | .scalarArray _, .array items =>
    .array (items.mapIdx fun i item => leafForm leaf (path.child (.index i)) item)
  | .objectArray members, .array items =>
    .array (items.mapIdx fun i item =>
      match item with
      | .object d => .object (normalMembers leaf (path.child (.index i)) members d)
      | _ => .null)
  | _, _ => .null

/-- The declared members but references, in the order of declaration; a missing one is null. -/
def normalMembers (leaf : Path → Json) (path : Path) :
    List (String × Field) → Fields Json → List (String × Json)
  | [], _ => []
  | (_, .reference _) :: rest, d => normalMembers leaf path rest d
  | (name, f) :: rest, d =>
    (name, match d.get? name with
      | none => .null
      | some v => normalForm leaf (path.child (.name name)) f v) :: normalMembers leaf path rest d

end

theorem normalMembers_cons (leaf : Path → Json) (path : Path) {name : String} {f : Field}
    (h : ∀ entity, f ≠ .reference entity) (rest : Members) (d : Fields Json) :
    normalMembers leaf path ((name, f) :: rest) d =
      (name, ((d.get? name).map (f.normalForm leaf (path.child (.name name)))).getD .null) ::
        normalMembers leaf path rest d := by
  rw [normalMembers.eq_3 _ _ _ _ _ _ h]
  cases d.get? name <;> rfl

/-- Members that decode to their normal forms make an object that does. -/
theorem decodeMembers_eq_normalMembers {leaf : Path → Json} {path : Path} {declared : Members}
    {d : Fields Json} {r : Record}
    (h : ∀ name f, (name, f) ∈ declared → (∀ entity, f ≠ .reference entity) →
      f.decodeMember (r.get? name) =
        .ok (some (((d.get? name).map (f.normalForm leaf (path.child (.name name)))).getD .null))) :
    decodeMembers declared r = .ok (normalMembers leaf path declared d) := by
  induction declared with
  | nil => rfl
  | cons member rest ih =>
    obtain ⟨name, f⟩ := member
    have hrest := ih fun key g hmem => h key g (List.mem_cons_of_mem _ hmem)
    by_cases hf : ∃ entity, f = .reference entity
    · obtain ⟨entity, rfl⟩ := hf
      exact hrest
    · have hstored : ∀ entity, f ≠ .reference entity := fun entity e => hf ⟨entity, e⟩
      rw [normalMembers_cons leaf path hstored]
      exact (decodeMembers_cons hstored).2
        ⟨_, _, h name f List.mem_cons_self hstored, hrest, rfl⟩

/-- The normal form of an element of an array of objects is that of an object. -/
theorem normalForm_objectArray (leaf : Path → Json) (path : Path) (members : Members)
    (items : List Json) :
    (Field.objectArray members).normalForm leaf path (.array items) =
      .array (items.mapIdx fun i item =>
        (Field.object members).normalForm leaf (path.child (.index i)) item) := by
  rw [normalForm]
  congr 1
  refine congrArg (fun g => items.mapIdx g) ?_
  funext i item
  cases item <;> rfl

end Field

/-- The normal form of a document. -/
def Entity.normalForm (e : Entity) (leaf : Path → Json) (d : Json) : Json :=
  (Field.object e.members).normalForm leaf .root d

namespace Mapper.Encodes

open Docstore.Field

variable {m : Mapper} {path : Path} {f g : Field} {v : Json} {b found : Bson}

theorem fits (h : m.Encodes path f v b) : f.Fits b := by
  cases h with
  | scalar h => exact trivial
  | null h =>
    cases f with
    | reference entity => exact h entity rfl
    | scalar t => exact trivial
    | _ => exact rfl
  | _ => exact trivial

/-- What a path leads to in a stored value is the stored form of a value. -/
theorem of_reaches {p : Path} (hreach : f.Reaches b p g found) (h : m.Encodes path f v b) :
    ∃ v', m.Encodes (path ++ p) g v' found := by
  obtain ⟨v', -, hencodes⟩ := h.exists_follow? hreach
  exact ⟨v', hencodes⟩

/-- What encoding gave decodes to the normal form, when its simple values can be read. -/
theorem decodeMember_eq {leaf : Path → Json} (h : m.Encodes path f v b) (hd : f.DistinctNames)
    (hleaf : ∀ p t c, f.Reaches b p (.scalar t) c → t.read c = .ok (leaf (path ++ p))) :
    f.decodeMember (some b) = .ok (some (f.normalForm leaf path v)) := by
  induction h with
  | @scalar path t v b h =>
    have hread := hleaf [] t b (.here _ b)
    rw [List.append_nil] at hread
    refine decodeMember_scalar.2 ⟨leaf path, hread, ?_⟩
    -- Null is stored and read as null, whatever the type.
    by_cases hv : v = .null
    · subst hv
      obtain rfl : .null = b := Except.ok.inj ((encodeScalar_null t path).symm.trans h)
      exact congrArg some (Except.ok.inj hread)
    · cases v <;> first | rfl | exact absurd rfl hv
  | @null path f h =>
    cases f with
    | reference entity => exact absurd rfl (h entity)
    | _ => rfl
  | @object path members d r hkeys hdeclared hbelow ih =>
    -- The decoder goes by the declared names, and looks each of them up in what was stored.
    have hmembers := @decodeMembers_eq_normalMembers leaf path members d r fun name f hmem hf => by
      have hget := (Fields.get?_eq_some_iff_mem hd.1).2 hmem
      cases hv : Fields.get? name d with
      | none =>
        rw [(Fields.get?_eq_none_iff_of_keys hkeys name).2 hv]
        rfl
      | some v =>
        obtain ⟨b, hb⟩ := Fields.exists_get?_of_keys hkeys.symm hv
        rw [hb]
        refine ih name f v b hget hv hb (hd.2.of_mem hmem) fun p t c hreach => ?_
        have hc := hleaf (.name name :: p) t c (.member hget hb hreach)
        simpa [Path.child] using hc
    have hdistinct := (keys_sublist_of_decodeMembers hmembers).nodup hd.1
    refine bind_eq_ok_iff.2 ⟨_, hmembers, ?_⟩
    rw [Fields.ofList_eq_self hdistinct]
    rfl
  | @scalarArray path t items stored hlength hbelow ih =>
    refine bind_eq_ok_iff.2 ⟨_, ((decodeItems_elementwise t).eq_ok_iff 0).2 ⟨?_, ?_⟩, rfl⟩
    · rw [List.length_mapIdx, hlength]
    · intro i b j hb hj
      obtain ⟨v, hv, rfl⟩ : ∃ v, items[i]? = some v ∧ _ = j := by simpa using hj
      have helement := ih i v b hv hb trivial fun p t c hreach => by
        have hc := hleaf (.index i :: p) t c (.scalarElement hb hreach)
        simpa [Path.child] using hc
      obtain ⟨j, hj, heq⟩ := decodeMember_scalar.1 helement
      obtain rfl : _ = j := Option.some.inj heq
      exact inPhase_eq_ok_iff.2 hj
  | @objectArray path members items stored hlength hbelow ih =>
    rw [normalForm_objectArray]
    refine bind_eq_ok_iff.2 ⟨_, ((decodeElements_elementwise members).eq_ok_iff 0).2 ⟨?_, ?_⟩, rfl⟩
    · rw [List.length_mapIdx, hlength]
    · intro i b j hb hj
      obtain ⟨v, hv, rfl⟩ : ∃ v, items[i]? = some v ∧ _ = j := by simpa using hj
      have helement := ih i v b hv hb hd fun p t c hreach => by
        have hc := hleaf (.index i :: p) t c (.objectElement hb hreach)
        simpa [Path.child] using hc
      rw [decodeElement, helement]
      rfl

end Mapper.Encodes

namespace Entity

variable {e : Entity} {m : Mapper} {d : Json} {r : Record}

/-- A record decodes as the object that its entity declares. -/
theorem decodeMember_document (e : Entity) (r : Record) :
    (Field.object e.members).decodeMember (some (.document r)) = (e.decode r).map some := by
  rw [Field.decodeMember_some (by simp), Field.decode, decode]
  cases Field.decodeMembers e.members r <;> rfl

theorem decode_eq_ok_iff {j : Json} :
    e.decode r = .ok j ↔
      (Field.object e.members).decodeMember (some (.document r)) = .ok (some j) := by
  rw [decodeMember_document]
  cases e.decode r <;> simp [Except.map]

theorem encodes_of_encodeAs (h : m.encodeAs e d = .ok r) :
    m.Encodes .root (.object e.members) d (.document r) := by
  cases d with
  | object members =>
    obtain ⟨hkeys, hdeclared, hbelow⟩ := Mapper.Encodes.of_encodeMembers h
    exact .object hkeys hdeclared hbelow
  | _ => cases h

/-- Readings of the simple values of a record are a function of their paths. -/
theorem exists_leaf (h : ∀ p t b, e.StoresLeaf r p t b → ∃ j, t.read b = .ok j) :
    ∃ leaf : Path → Json, ∀ p t b, e.StoresLeaf r p t b → t.read b = .ok (leaf p) := by
  have hread : ∀ p, ∃ j, ∀ t b, e.StoresLeaf r p t b → t.read b = .ok j := by
    intro p
    by_cases hp : ∃ t b, e.StoresLeaf r p t b
    · obtain ⟨t, b, htype, hstored⟩ := hp
      obtain ⟨j, hj⟩ := h p t b ⟨htype, hstored⟩
      refine ⟨j, fun t' b' hleaf => ?_⟩
      obtain rfl : t = t' := Option.some.inj (htype.symm.trans hleaf.1)
      obtain rfl : b = b' := Option.some.inj (hstored.symm.trans hleaf.2)
      exact hj
    · exact ⟨.null, fun t b hleaf => absurd ⟨t, b, hleaf⟩ hp⟩
  exact ⟨fun p => (hread p).choose, fun p => (hread p).choose_spec⟩

/-- The record of a document decodes exactly when every simple value in it can be read, and then
to the normal form of the document. Every stored value has the declared shape, so decoding leaves
none out. -/
theorem decode_encodeAs (he : e.Distinct) (h : m.encodeAs e d = .ok r) :
    ((∃ j, e.decode r = .ok j) ↔ ∀ p t b, e.StoresLeaf r p t b → ∃ j, t.read b = .ok j) ∧
      (∀ leaf : Path → Json, (∀ p t b, e.StoresLeaf r p t b → t.read b = .ok (leaf p)) →
        e.decode r = .ok (e.normalForm leaf d)) ∧
      ∀ p c b, e.resolve? p = some c → Bson.follow? p (.document r) = some b →
        c.node.asField.Fits b ∧ c.node.asField.decodeMember (some b) ≠ .ok none := by
  have hencodes := encodes_of_encodeAs h
  have hdecode : ∀ leaf : Path → Json, (∀ p t b, e.StoresLeaf r p t b → t.read b = .ok (leaf p)) →
      e.decode r = .ok (e.normalForm leaf d) := fun leaf hleaf =>
    decode_eq_ok_iff.2 (hencodes.decodeMember_eq he fun p t b hreach =>
      hleaf p t b (storesLeaf_iff.2 hreach))
  refine ⟨⟨?_, fun hread => ?_⟩, hdecode, fun p c b hc hb => ?_⟩
  · rintro ⟨j, hj⟩ p t b hleaf
    exact Field.read_of_decodeMember (storesLeaf_iff.1 hleaf) rfl (decode_eq_ok_iff.1 hj)
  · obtain ⟨leaf, hleaf⟩ := exists_leaf hread
    exact ⟨_, hdecode leaf hleaf⟩
  · have hdeclared : (Field.object e.members).follow? p = some c.node.asField := by
      rw [← resolve?_asField, hc]
      rfl
    obtain ⟨v, hv⟩ := hencodes.of_reaches (Field.reaches_iff.2 ⟨hdeclared, hb⟩)
    exact ⟨hv.fits, hv.fits.decodeMember_ne⟩

/-- A document with a missing member, a null one and rows. -/
theorem decode_encodeAs_rows :
    let e : Entity := ⟨"table", [("title", .scalar .string), ("lead", .object [("nick",
      .scalar .string)]), ("owner", .reference "user"), ("rows", .objectArray [("tags",
      .scalarArray .string), ("open", .scalar .boolean)])]⟩
    let m : Mapper := { entities := [] }
    let d : Json := .object [("rows", .array [.null, .object [("tags", .array [.string "a",
      .null])]]), ("lead", .null)]
    let r : Record := [("rows", .array [.null, .document [("tags", .array [.string "a",
      .null])]]), ("lead", .null)]
    e.Distinct ∧ m.encodeAs e d = .ok r ∧
      ∀ p t b, e.StoresLeaf r p t b → ∃ j, t.read b = .ok j := by
  intro e m d r
  have he : e.Distinct := by
    simp [e, Distinct, Fields.Distinct, Fields.keys, Field.MembersDistinct, Field.DistinctNames]
  exact ⟨he, rfl, (decode_encodeAs (m := m) (d := d) he rfl).1.1 ⟨_, rfl⟩⟩

end Entity

end Docstore
