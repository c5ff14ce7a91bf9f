import Docstore.Proofs.Identifier
import Docstore.Proofs.Record.NormalForm
import Docstore.Proofs.Record.Refreshed
import Docstore.Proofs.Record.Stored

/-!
# Storing what was read

* `Mapper.encodeScalar_of_read` : a simple value that was read is stored as it was;
* `Mapper.Restorable`, `Mapper.ReadsDecimals` : what this takes of a declaration and of a value;
* `Mapper.mergeIf` : the new value of a field, merged with the old one outside of arrays;
* `Mapper.Stored.encode_of_decode` : a whole value that was read is stored as it was, up to nulls
  and undeclared names.

Objects and arrays have a lemma each (`encode_object`, `encode_scalarArray`, `encode_objectArray`)
that takes the claim for their members as a hypothesis.
-/

namespace Docstore

namespace Mapper

variable {m : Mapper}

/-- A simple value that was read is stored as it was. -/
theorem encodeScalar_of_read {t : ScalarType} {path : Path} {v j : Json} {b : Bson}
    (ht : t ≠ .any) (hid : m.isIdPath path = true → t = .string ∨ t = .integer)
    (hdecimal : ∀ d : Decimal, t = .bigDecimal → b = .string d.text →
      Decimal.ofText? d.text = some d)
    (h : m.encodeScalar t path v = .ok b) (hj : t.read b = .ok j) :
    m.encodeScalar t path j = .ok b := by
  obtain ⟨c, hc, rfl⟩ := encodeScalar_eq_ok_iff.1 h
  refine encodeScalar_eq_ok_iff.2 ?_
  by_cases hpath : m.isIdPath path = true
  · simp only [if_pos hpath] at hj ⊢
    obtain ⟨c', hc', hform⟩ := ScalarType.cast_of_read_asIdentifier (hid hpath) hc hj
    exact ⟨c', hc', hform.symm⟩
  · simp only [if_neg hpath] at hj hdecimal ⊢
    refine ⟨c, ScalarType.cast_of_read ht (fun d hd => ?_) hc hj, rfl⟩
    subst hd
    exact hdecimal d (ScalarType.eq_bigDecimal_of_cast ht hc) rfl

/-- Simple values at and below a path can be read and stored again: none is free-form, and the
identifier is text or an integer. -/
def Restorable (m : Mapper) (path : Path) (f : Field) : Prop :=
  ∀ p t, f.follow? p = some (.scalar t) →
    t ≠ .any ∧ (m.isIdPath (path ++ p) = true → t = .string ∨ t = .integer)

namespace Restorable

variable {path : Path} {members : Members}

theorem member {name : String} {f : Field} (h : m.Restorable path (.object members))
    (hf : members.get? name = some f) : m.Restorable (path.child (.name name)) f := by
  intro p t hp
  have hbelow := h (.name name :: p) t (by simpa [Field.follow?, Field.step?, hf] using hp)
  simpa [Path.child] using hbelow

theorem scalarElement {t : ScalarType} (h : m.Restorable path (.scalarArray t)) (i : Nat) :
    m.Restorable (path.child (.index i)) (.scalar t) := by
  intro p t' hp
  have hbelow := h (.index i :: p) t' hp
  simpa [Path.child] using hbelow

theorem objectElement (h : m.Restorable path (.objectArray members)) (i : Nat) :
    m.Restorable (path.child (.index i)) (.object members) := by
  intro p t hp
  have hbelow := h (.index i :: p) t hp
  simpa [Path.child] using hbelow

end Restorable

/-- Every decimal that is stored is read back from its text. -/
def ReadsDecimals (f : Field) (b : Bson) : Prop :=
  ∀ p (d : Decimal), f.Reaches b p (.scalar .bigDecimal) (.string d.text) →
    Decimal.ofText? d.text = some d

/-- The new value of a field, merged with the old one where undeclared names may stand. -/
def mergeIf (opened : Bool) (f : Field) (old : Option Bson) (new : Bson) : Bson :=
  if opened then f.mergeValue old new else new

theorem mergeIf_null (opened : Bool) (f : Field) (old : Option Bson) :
    mergeIf opened f old .null = .null := by
  cases opened with
  | false => rfl
  | true => cases f <;> rcases old with _ | (_ | _) <;> rfl

/-- Only objects are merged. -/
theorem mergeIf_eq {f : Field} (h : ∀ members, f ≠ .object members) (opened : Bool)
    (old : Option Bson) (new : Bson) : mergeIf opened f old new = new := by
  cases opened with
  | false => rfl
  | true => cases f <;> first | rfl | exact absurd rfl (h _)

/-- A declared member was refreshed, or is missing or null before and after. -/
def RefreshedMember (f : Field) (old new : Option Bson) : Prop :=
  (old = none ∨ old = some .null) ∧ (new = none ∨ new = some .null) ∨
    ∃ b b', old = some b ∧ new = some b' ∧ b ≠ .null ∧ f.Refreshed b b'

/-- Objects are refreshed when their declared members are. -/
theorem refreshed_object {members : Members} {r r' : Record} (hr : r.Distinct) (hr' : r'.Distinct)
    (hundeclared : ∀ name, members.get? name = none → r'.get? name = r.get? name)
    (hdeclared : ∀ name f, members.get? name = some f →
      RefreshedMember f (r.get? name) (r'.get? name)) :
    (Field.object members).Refreshed (.document r) (.document r') := by
  refine .object hr hr' hundeclared (fun name f hf => ?_) fun name f b b' hf hb hb' => ?_
  · rcases hdeclared name f hf with ⟨hlacks, hlacks'⟩ | ⟨b, b', hb, hb', hnull, hrefreshed⟩
    · exact iff_of_true hlacks' hlacks
    · have hnull' : b' ≠ .null := fun e => hnull (hrefreshed.isNull_iff.1 e)
      simp [Field.Lacks, hb, hb', hnull, hnull']
  · rcases hdeclared name f hf with ⟨hlacks, hlacks'⟩ | ⟨c, c', hc, hc', -, hrefreshed⟩
    · obtain rfl : b = .null := by simpa [hb] using hlacks
      obtain rfl : b' = .null := by simpa [hb'] using hlacks'
      exact .same f _
    · obtain rfl : b = c := Option.some.inj (hb.symm.trans hc)
      obtain rfl : b' = c' := Option.some.inj (hb'.symm.trans hc')
      exact hrefreshed

/-- A member that was read, as null when it was missing, is stored as it was, up to null. -/
theorem encode_member {opened : Bool} {path : Path} {f : Field} {old : Option Bson} {v : Json}
    (hf : ∀ entity, f ≠ .reference entity) (hv : f.decodeMember old = .ok (some v))
    (hmember : ∀ b, old = some b → ∃ b', m.encodeField path f v = .ok b' ∧
      f.Refreshed b (mergeIf opened f (some b) b')) :
    ∃ b', m.encodeField path f v = .ok b' ∧
      RefreshedMember f old (some (mergeIf opened f old b')) := by
  by_cases hlacks : old = none ∨ old = some .null
  · have hnull : f.decodeMember old = .ok (some .null) := by
      rcases hlacks with rfl | rfl <;> rfl
    obtain rfl : .null = v := Option.some.inj (Except.ok.inj (hnull.symm.trans hv))
    exact ⟨.null, encodeField_null hf path, .inl ⟨hlacks, .inr (by rw [mergeIf_null])⟩⟩
  · cases old with
    | none => exact absurd (.inl rfl) hlacks
    | some b =>
      obtain ⟨b', hb', hrefreshed⟩ := hmember b rfl
      exact ⟨b', hb', .inr ⟨b, _, rfl, rfl, fun e => hlacks (.inr (e ▸ rfl)), hrefreshed⟩⟩

/-- Where no member is declared that could be read, nothing is encoded. -/
theorem get?_eq_none_of_encodeMembers {path : Path} {members : Members} {r x : Record}
    {js : List (String × Json)} (hd : Fields.Distinct members)
    (hjs : Field.decodeMembers members r = .ok js) (hx : m.encodeMembers members path js = .ok x)
    {name : String} (hname : ∀ f, members.get? name = some f → ∃ entity, f = .reference entity) :
    x.get? name = none := by
  rw [Fields.get?_eq_none_iff_of_keys (Encodes.of_encodeMembers hx).1]
  cases hv : Fields.get? name js with
  | none => rfl
  | some v =>
    obtain ⟨f, hf, hstored, -⟩ := Field.get?_of_decodeMembers hd hjs hv
    obtain ⟨entity, rfl⟩ := hname f hf
    exact absurd rfl (hstored entity)

/-- A saved object is a document with distinct names. -/
theorem exists_mergeIf_eq_document {opened : Bool} {members : Members} {x : Record}
    (hx : x.Distinct) (r : Record) : ∃ r' : Record,
      mergeIf opened (.object members) (some (.document r)) (.document x) = .document r' ∧
        Fields.Distinct r' := by
  cases opened with
  | false => exact ⟨x, rfl, hx⟩
  | true => exact ⟨_, rfl, Members.distinct_merge hx r⟩

/-- Under a name of a saved object stands the encoded member, merged with the old one, or what is
not declared. -/
theorem get?_of_mergeIf {opened : Bool} {members : Members} {r x r' : Record} (hr : r.Distinct)
    (hclosed : opened = false → ∀ name, members.get? name = none → r.get? name = none)
    (hx : ∀ name, members.get? name = none → x.get? name = none)
    (hr' : mergeIf opened (.object members) (some (.document r)) (.document x) = .document r')
    (name : String) :
    r'.get? name = (members.get? name).elim (r.get? name)
      fun f => (x.get? name).map (mergeIf opened f (r.get? name)) := by
  cases opened with
  | false =>
    obtain rfl : x = r' := Bson.document.inj hr'
    cases hf : members.get? name with
    | none => rw [hx name hf, Option.elim_none, hclosed rfl name hf]
    | some f => cases Fields.get? name x <;> simp [mergeIf]
  | true =>
    obtain rfl : Members.merge members r x = r' := Bson.document.inj hr'
    rw [Members.get?_merge hr]
    cases hf : members.get? name with
    | none => rw [Option.elim_none, hx name hf, Option.none_or, Option.elim_none]
    | some f => rfl

namespace Stored

variable {opened : Bool} {path : Path} {f : Field} {b : Bson} {j : Json}

theorem fits (h : m.Stored opened path f b) : f.Fits b := by
  cases h with
  | null h =>
    cases f with
    | reference entity => exact h entity rfl
    | scalar t => exact trivial
    | _ => exact rfl
  | _ => exact trivial

section

variable {members : Members} {r x : Record} {js : List (String × Json)} {name : String}

theorem distinct (h : m.Stored opened path (.object members) (.document r)) : r.Distinct := by
  cases h with
  | object hdistinct _ _ => exact hdistinct

theorem closed (h : m.Stored opened path (.object members) (.document r)) (hopened : opened = false)
    (hname : members.get? name = none) : r.get? name = none := by
  cases h with
  | object _ hclosed _ => exact hclosed hopened name hname

theorem member (h : m.Stored opened path (.object members) (.document r))
    (hf : members.get? name = some f) (hb : r.get? name = some b) :
    m.Stored opened (path.child (.name name)) f b := by
  cases h with
  | object _ _ hbelow => exact hbelow name f b hf hb

/-- Nothing is stored under the name of a reference. -/
theorem get?_reference (h : m.Stored opened path (.object members) (.document r))
    (hf : members.get? name = some f) (href : ∃ entity, f = .reference entity) :
    r.get? name = none := by
  obtain ⟨entity, rfl⟩ := href
  cases hb : Fields.get? name r with
  | none => rfl
  | some b => exact absurd rfl ((h.member hf hb).fits.ne_reference entity)

/-- Of a stored object, every declared member but a reference is read. -/
theorem exists_decodeMember (h : m.Stored opened path (.object members) (.document r))
    (hjs : Field.decodeMembers members r = .ok js) (hf : members.get? name = some f)
    (hstored : ∀ entity, f ≠ .reference entity) :
    ∃ v, f.decodeMember (r.get? name) = .ok (some v) := by
  obtain ⟨o, ho⟩ :=
    Field.decodeMember_of_decodeMembers hjs (Fields.mem_of_get?_eq_some hf) hstored
  cases o with
  | some v => exact ⟨v, ho⟩
  | none =>
    cases hb : Fields.get? name r with
    | none => exact ⟨.null, rfl⟩
    | some b => exact absurd (hb ▸ ho) (h.member hf hb).fits.decodeMember_ne

/-- The encoded members, merged with the old ones, are the old ones refreshed. -/
theorem refreshedMember (h : m.Stored opened path (.object members) (.document r))
    (hd : Fields.Distinct members) (hjs : Field.decodeMembers members r = .ok js)
    (hx : m.encodeMembers members path js = .ok x)
    (hencode : ∀ name f v, members.get? name = some f → (∀ entity, f ≠ .reference entity) →
      f.decodeMember (r.get? name) = .ok (some v) →
        ∃ b', m.encodeField (path.child (.name name)) f v = .ok b' ∧
          RefreshedMember f (r.get? name) (some (mergeIf opened f (r.get? name) b')))
    (hf : members.get? name = some f) :
    RefreshedMember f (r.get? name) ((x.get? name).map (mergeIf opened f (r.get? name))) := by
  by_cases href : ∃ entity, f = .reference entity
  · -- References are neither read nor stored.
    have hnew : x.get? name = none := get?_eq_none_of_encodeMembers hd hjs hx fun g hg =>
      Option.some.inj (hf.symm.trans hg) ▸ href
    exact .inl ⟨.inl (h.get?_reference hf href), .inl (by rw [hnew]; rfl)⟩
  · have hstored : ∀ entity, f ≠ .reference entity := fun entity e => href ⟨entity, e⟩
    have hdistinct := (Field.keys_sublist_of_decodeMembers hjs).nodup hd
    obtain ⟨v, hv⟩ := h.exists_decodeMember hjs hf hstored
    have hjson : Fields.get? name js = some v := (Fields.get?_eq_some_iff_mem hdistinct).2
      ((Field.mem_of_decodeMembers hjs).2 ⟨f, Fields.mem_of_get?_eq_some hf, hstored, hv⟩)
    obtain ⟨g, b', hg, hb', hx'⟩ := get?_of_encodeMembers hx hjson
    obtain rfl : f = g := Option.some.inj (hf.symm.trans hg)
    obtain ⟨c, hc, hrefreshed⟩ := hencode name f v hf hstored hv
    obtain rfl : b' = c := Except.ok.inj (hb'.symm.trans hc)
    rw [hx', Option.map_some]
    exact hrefreshed

/-- An object that was read is stored as it was, up to nulls, when its members are. -/
theorem encode_object (h : m.Stored opened path (.object members) (.document r))
    (hd : Fields.Distinct members)
    (hmember : ∀ name f b j, members.get? name = some f → Fields.get? name r = some b →
      f.decodeMember (some b) = .ok (some j) →
        ∃ b', m.encodeField (path.child (.name name)) f j = .ok b' ∧
          f.Refreshed b (mergeIf opened f (some b) b'))
    (hj : (Field.object members).decodeMember (some (.document r)) = .ok (some j)) :
    ∃ b', m.encodeField path (.object members) j = .ok b' ∧
      (Field.object members).Refreshed (.document r)
        (mergeIf opened (.object members) (some (.document r)) b') := by
  obtain ⟨js, hjs, hj⟩ := bind_eq_ok_iff.1 hj
  have hdistinct := (Field.keys_sublist_of_decodeMembers hjs).nodup hd
  rw [Fields.ofList_eq_self hdistinct] at hj
  obtain rfl : .object js = j := Option.some.inj (Except.ok.inj hj)
  -- Every member that was read can be stored again.
  have hencode : ∀ name f v, members.get? name = some f → (∀ entity, f ≠ .reference entity) →
      f.decodeMember (r.get? name) = .ok (some v) →
        ∃ b', m.encodeField (path.child (.name name)) f v = .ok b' ∧
          RefreshedMember f (r.get? name) (some (mergeIf opened f (r.get? name) b')) :=
    fun name f v hf hstored hv => encode_member hstored hv fun b hb =>
      hmember name f b v hf hb (hb ▸ hv)
  obtain ⟨x, hx⟩ : ∃ x, m.encodeMembers members path js = .ok x := by
    refine encodeMembers_of_forall fun name v hmem => ?_
    obtain ⟨f, hf, hstored, hv⟩ :=
      Field.get?_of_decodeMembers hd hjs ((Fields.get?_eq_some_iff_mem hdistinct).2 hmem)
    obtain ⟨b', hb', -⟩ := hencode name f v hf hstored hv
    exact ⟨f, b', hf, hb'⟩
  have hxdistinct : Fields.Distinct x := by
    rw [Fields.Distinct, (Encodes.of_encodeMembers hx).1]
    exact hdistinct
  -- The names that are not declared come from the old object alone.
  have hundeclared : ∀ name, members.get? name = none → Fields.get? name x = none :=
    fun name hname => get?_eq_none_of_encodeMembers hd hjs hx fun f hf => by
      rw [hname] at hf
      cases hf
  obtain ⟨r', hr', hdistinct'⟩ := @exists_mergeIf_eq_document opened members x hxdistinct r
  have hget := get?_of_mergeIf h.distinct (fun hopened name hname => h.closed hopened hname)
    hundeclared hr'
  refine ⟨.document x, by rw [encodeField, hx]; rfl, hr' ▸ ?_⟩
  refine refreshed_object h.distinct hdistinct' (fun name hf => ?_) fun name f hf => ?_
  · rw [hget, hf, Option.elim_none]
  · rw [hget, hf, Option.elim_some]
    exact h.refreshedMember hd hjs hx hencode hf

end

/-- An array of simple values that was read is stored as it was, when its items are. -/
theorem encode_scalarArray {t : ScalarType} {stored : List Bson}
    (hitem : ∀ (i : Nat) b v, stored[i]? = some b →
      (Field.scalar t).decodeMember (some b) = .ok (some v) →
        ∃ b', m.encodeField (path.child (.index i)) (.scalar t) v = .ok b' ∧
          (Field.scalar t).Refreshed b b')
    (hj : (Field.scalarArray t).decodeMember (some (.array stored)) = .ok (some j)) :
    m.encodeField path (.scalarArray t) j = .ok (.array stored) := by
  obtain ⟨js, hjs, hj⟩ := bind_eq_ok_iff.1 hj
  obtain rfl : .array js = j := Option.some.inj (Except.ok.inj hj)
  obtain ⟨hlength, hread⟩ := ((Field.decodeItems_elementwise t).eq_ok_iff 0).1 hjs
  have hitems : encodeScalars t js = .ok stored := by
    refine ((@encodeScalars_elementwise m t path).eq_ok_iff 0).2
      ⟨hlength.symm, fun i v b hv hb => ?_⟩
    have hmember := Field.decodeMember_scalar.2 ⟨v, inPhase_eq_ok_iff.1 (hread i b v hb hv), rfl⟩
    obtain ⟨b', hb', hrefreshed⟩ := hitem i b v hb hmember
    cases hrefreshed
    simpa [encodeField] using hb'
  rw [encodeField, hitems]
  rfl

/-- An array of objects that was read is stored as it was, up to nulls, when its elements are. -/
theorem encode_objectArray {members : Members} {stored : List Bson}
    (hfits : ∀ (i : Nat) b, stored[i]? = some b → (Field.object members).Fits b)
    (helement : ∀ (i : Nat) b v, stored[i]? = some b →
      (Field.object members).decodeMember (some b) = .ok (some v) →
        ∃ b', m.encodeField (path.child (.index i)) (.object members) v = .ok b' ∧
          (Field.object members).Refreshed b b')
    (hj : (Field.objectArray members).decodeMember (some (.array stored)) = .ok (some j)) :
    ∃ b', m.encodeField path (.objectArray members) j = .ok b' ∧
      (Field.objectArray members).Refreshed (.array stored) b' := by
  obtain ⟨js, hjs, hj⟩ := bind_eq_ok_iff.1 hj
  obtain rfl : .array js = j := Option.some.inj (Except.ok.inj hj)
  obtain ⟨hlength, hread⟩ := ((Field.decodeElements_elementwise members).eq_ok_iff 0).1 hjs
  have hencode : ∀ (i : Nat) b v, stored[i]? = some b → js[i]? = some v →
      ∃ b', m.encodeField (path.child (.index i)) (.object members) v = .ok b' ∧
        (Field.object members).Refreshed b b' := fun i b v hb hv =>
    helement i b v hb (Field.decodeMember_of_decodeElement (hfits i b hb) (hread i b v hb hv))
  have helements := @encodeElements_elementwise m members path
  obtain ⟨items, hitems⟩ : ∃ items, m.encodeElements members path 0 js = .ok items := by
    refine helements.exists_ok 0 fun i v hv => ?_
    obtain ⟨b, hb⟩ := getElem?_of_length hlength.symm hv
    obtain ⟨b', hb', -⟩ := hencode i b v hb hv
    exact ⟨b', by rwa [Nat.zero_add]⟩
  obtain ⟨hlength', hstored⟩ := (helements.eq_ok_iff 0).1 hitems
  refine ⟨.array items, by rw [encodeField, hitems]; rfl, ?_⟩
  refine .objectArray (hlength'.trans hlength) fun i b b' hb hb' => ?_
  obtain ⟨v, hv⟩ := getElem?_of_length hlength hb
  obtain ⟨c, hc, hrefreshed⟩ := hencode i b v hb hv
  have hc' := hstored i v b' hv hb'
  rw [Nat.zero_add, hc] at hc'
  exact Except.ok.inj hc' ▸ hrefreshed

/-- A value that was read is stored as it was, up to nulls; merging brings undeclared names
back. -/
theorem encode_of_decode (h : m.Stored opened path f b) (hd : f.DistinctNames)
    (hrestore : m.Restorable path f) (hdecimal : ReadsDecimals f b)
    (hj : f.decodeMember (some b) = .ok (some j)) :
    ∃ b', m.encodeField path f j = .ok b' ∧ f.Refreshed b (mergeIf opened f (some b) b') := by
  induction h generalizing j with
  | @scalar opened path t v b h =>
    obtain ⟨j', hread, heq⟩ := Field.decodeMember_scalar.1 hj
    obtain rfl : j = j' := Option.some.inj heq
    obtain ⟨hany, hid⟩ := hrestore [] t rfl
    rw [List.append_nil] at hid
    have hdec : ∀ d : Decimal, t = .bigDecimal → b = .string d.text →
        Decimal.ofText? d.text = some d := by
      rintro d rfl rfl
      exact hdecimal [] d (.here _ _)
    refine ⟨b, ?_, ?_⟩
    · rw [encodeField]
      exact encodeScalar_of_read hany hid hdec h hread
    · rw [mergeIf_eq (by simp)]
      exact .same _ b
  | @null opened path f h =>
    obtain rfl : .null = j := Option.some.inj (Except.ok.inj hj)
    exact ⟨.null, encodeField_null h path, (mergeIf_null opened f _).symm ▸ .same f _⟩
  | @object opened path members r distinct closed below ih =>
    refine encode_object (.object distinct closed below) hd.1 (fun name f b j hf hb hj => ?_) hj
    exact ih name f b hf hb (hd.2.of_mem (Fields.mem_of_get?_eq_some hf)) (hrestore.member hf)
      (fun p d hreach => hdecimal (.name name :: p) d (.member hf hb hreach)) hj
  | @scalarArray opened path t stored below ih =>
    refine ⟨.array stored, encode_scalarArray (fun i b v hb hv => ?_) hj, ?_⟩
    · exact ih i b hb trivial (hrestore.scalarElement i)
        (fun p d hreach => hdecimal (.index i :: p) d (.scalarElement hb hreach)) hv
    · rw [mergeIf_eq (by simp)]
      exact .same _ _
  | @objectArray opened path members stored below ih =>
    simp only [mergeIf_eq (f := .objectArray members) nofun]
    refine encode_objectArray (fun i b hb => (below i b hb).fits) (fun i b v hb hv => ?_) hj
    exact ih i b hb hd (hrestore.objectElement i)
      (fun p d hreach => hdecimal (.index i :: p) d (.objectElement hb hreach)) hv

end Stored

end Mapper

end Docstore
