import Docstore.Proofs.Entity.Declared
import Docstore.Proofs.Except
import Docstore.Proofs.Fields
import Docstore.Record.Decode

/-!
# What decoding reads

* `Field.decodeMember` : the JSON value of a member, which is null when it is missing;
* `Field.Fits` : a stored value is null or of the declared shape, so that decoding does not leave
  it out;
* `Field.decodeMembers_cons`, `Field.mem_of_decodeMembers` : members are read in the order of
  declaration;
* `Field.get?_decodeMembers_iff` : a member is left out when its value does not fit;
* `Field.decodeItems_elementwise`, `Field.decodeElements_elementwise` : arrays are read element by
  element;
* `Field.read_of_decodeMember` : where decoding succeeds, every simple value can be read.
-/

namespace Docstore

theorem inPhase_eq_ok_iff {α : Type} {phase : Phase} {x : Except CastError α} {a : α} :
    inPhase phase x = .ok a ↔ x = .ok a := by
  cases x <;> simp [inPhase]

namespace Field

/-- The JSON value of a member that is stored or missing, or none when it is left out. -/
def decodeMember (f : Field) : Option Bson → Except Error (Option Json)
  | none => .ok (some .null)
  | some .null => .ok (some .null)
  | some stored => f.decode stored

theorem decodeMember_some {f : Field} {b : Bson} (h : b ≠ .null) :
    f.decodeMember (some b) = f.decode b := by
  cases b <;> first | rfl | exact absurd rfl h

theorem decodeMember_scalar {t : ScalarType} {b : Bson} {o : Option Json} :
    (Field.scalar t).decodeMember (some b) = .ok o ↔ ∃ j, t.read b = .ok j ∧ o = some j := by
  by_cases hb : b = .null
  · subst hb
    rw [decodeMember, ScalarType.read_null]
    simp [eq_comm]
  · rw [decodeMember_some hb, decode, bind_eq_ok_iff]
    simp only [inPhase_eq_ok_iff, pure_eq_ok_iff, @eq_comm _ o]

/-- The stored value is null or has the declared shape. References are not stored. -/
def Fits : Field → Bson → Prop
  | .scalar _, _ => True
  | .reference _, _ => False
  | .object _, .document _ => True
  | .scalarArray _, .array _ => True
  | .objectArray _, .array _ => True
  | _, b => b = .null

theorem Fits.ne_reference {f : Field} {b : Bson} (h : f.Fits b) (entity : String) :
    f ≠ .reference entity := by
  rintro rfl
  exact h

/-- Decoding leaves no value of the declared shape out. -/
theorem Fits.decodeMember_ne {f : Field} {b : Bson} (h : f.Fits b) :
    f.decodeMember (some b) ≠ .ok none := by
  intro hnone
  by_cases hnull : b = .null
  · subst hnull
    cases hnone
  rw [decodeMember_some hnull] at hnone
  -- Where the shape is declared, the value is read and the result is some value.
  cases f with
  | reference entity => exact h
  | scalar t =>
    obtain ⟨j, -, hj⟩ := bind_eq_ok_iff.1 hnone
    cases hj
  | object members =>
    cases b with
    | document r =>
      obtain ⟨js, -, hjs⟩ := bind_eq_ok_iff.1 hnone
      cases hjs
    | _ => exact hnull h
  | scalarArray t =>
    cases b with
    | array items =>
      obtain ⟨js, -, hjs⟩ := bind_eq_ok_iff.1 hnone
      cases hjs
    | _ => exact hnull h
  | objectArray members =>
    cases b with
    | array items =>
      obtain ⟨js, -, hjs⟩ := bind_eq_ok_iff.1 hnone
      cases hjs
    | _ => exact hnull h

/-- The first declared member is read unless it is a reference, and is left out when it is
stored in another shape. -/
theorem decodeMembers_cons_eq {name : String} {f : Field} (h : ∀ entity, f ≠ .reference entity)
    (rest : Members) (r : Record) :
    decodeMembers ((name, f) :: rest) r =
      f.decodeMember (r.get? name) >>= fun o =>
        (decodeMembers rest r).map fun more => o.elim more fun value => (name, value) :: more := by
  rw [decodeMembers.eq_3 _ _ _ _ h]
  split
  · next hget =>
    rw [hget]
    rfl
  · next hget =>
    rw [hget]
    rfl
  · next b hb hget =>
    rw [hget, decodeMember_some hb]
    refine congrArg _ (funext fun o => ?_)
    cases o <;> cases decodeMembers rest r <;> rfl

theorem decodeMembers_cons {name : String} {f : Field} (h : ∀ entity, f ≠ .reference entity)
    {rest : Members} {r : Record} {js : List (String × Json)} :
    decodeMembers ((name, f) :: rest) r = .ok js ↔
      ∃ o more, f.decodeMember (r.get? name) = .ok o ∧ decodeMembers rest r = .ok more ∧
        js = o.elim more fun value => (name, value) :: more := by
  rw [decodeMembers_cons_eq h, bind_eq_ok_iff]
  simp only [map_eq_ok_iff, exists_and_left, @eq_comm _ js]

/-- Every declared member that is no reference is read. -/
theorem decodeMember_of_decodeMembers {declared : Members} {r : Record}
    {js : List (String × Json)} (h : decodeMembers declared r = .ok js) {name : String} {f : Field}
    (hmem : (name, f) ∈ declared) (hf : ∀ entity, f ≠ .reference entity) :
    ∃ o, f.decodeMember (r.get? name) = .ok o := by
  induction declared generalizing js with
  | nil => cases hmem
  | cons member rest ih =>
    obtain ⟨key, g⟩ := member
    by_cases hg : ∃ entity, g = .reference entity
    · obtain ⟨entity, rfl⟩ := hg
      rcases List.mem_cons.1 hmem with heq | hmem
      · exact absurd (Prod.mk.inj heq).2 (hf entity)
      · exact ih h hmem
    · obtain ⟨o, more, ho, hmore, -⟩ := (decodeMembers_cons fun entity e => hg ⟨entity, e⟩).1 h
      rcases List.mem_cons.1 hmem with heq | hmem
      · obtain ⟨rfl, rfl⟩ := Prod.mk.inj heq
        exact ⟨o, ho⟩
      · exact ih hmore hmem

/-- The members that are read are those of the declared members that are not left out. -/
theorem mem_of_decodeMembers {declared : Members} {r : Record} {js : List (String × Json)}
    (h : decodeMembers declared r = .ok js) {name : String} {v : Json} :
    (name, v) ∈ js ↔ ∃ f, (name, f) ∈ declared ∧ (∀ entity, f ≠ .reference entity) ∧
      f.decodeMember (r.get? name) = .ok (some v) := by
  induction declared generalizing js with
  | nil =>
    obtain rfl : [] = js := Except.ok.inj h
    constructor
    · intro hmem
      cases hmem
    · rintro ⟨f, hmem, -⟩
      cases hmem
  | cons member rest ih =>
    obtain ⟨key, g⟩ := member
    by_cases hg : ∃ entity, g = .reference entity
    · obtain ⟨entity, rfl⟩ := hg
      rw [ih h]
      constructor
      · rintro ⟨f, hmem, hf⟩
        exact ⟨f, List.mem_cons_of_mem _ hmem, hf⟩
      · rintro ⟨f, hmem, hf, hread⟩
        refine ⟨f, (List.mem_cons.1 hmem).resolve_left fun e => ?_, hf, hread⟩
        exact hf entity (Prod.mk.inj e).2
    · have hstored : ∀ entity, g ≠ .reference entity := fun entity e => hg ⟨entity, e⟩
      obtain ⟨o, more, ho, hmore, rfl⟩ := (decodeMembers_cons hstored).1 h
      -- The first member is there unless it was left out.
      have hfirst : (name, v) ∈ (o.elim more fun value => (key, value) :: more) ↔
          (name, v) ∈ more ∨ key = name ∧ o = some v := by
        cases o with
        | none => simp
        | some value =>
          simp only [Option.elim_some, List.mem_cons, Prod.mk.injEq, Option.some.injEq]
          rw [or_comm, @eq_comm _ name, @eq_comm _ v]
      rw [hfirst, ih hmore]
      constructor
      · rintro (⟨f, hmem, hf⟩ | ⟨rfl, rfl⟩)
        · exact ⟨f, List.mem_cons_of_mem _ hmem, hf⟩
        · exact ⟨g, List.mem_cons_self, hstored, ho⟩
      · rintro ⟨f, hmem, hf, hread⟩
        rcases List.mem_cons.1 hmem with e | hmem
        · obtain ⟨rfl, rfl⟩ := Prod.mk.inj e
          exact .inr ⟨rfl, Except.ok.inj (ho.symm.trans hread)⟩
        · exact .inl ⟨f, hmem, hf, hread⟩

/-- Under a name is read what the member of that name decodes to. -/
theorem get?_of_decodeMembers {declared : Members} {r : Record} {js : List (String × Json)}
    (hd : declared.Distinct) (h : decodeMembers declared r = .ok js) {name : String} {v : Json}
    (hv : Fields.get? name js = some v) :
    ∃ f, declared.get? name = some f ∧ (∀ entity, f ≠ .reference entity) ∧
      f.decodeMember (r.get? name) = .ok (some v) := by
  obtain ⟨f, hmem, hf⟩ := (mem_of_decodeMembers h).1 (Fields.mem_of_get?_eq_some hv)
  exact ⟨f, (Fields.get?_eq_some_iff_mem hd).2 hmem, hf⟩

/-- No name is read that is not declared, and their order is that of the declaration. -/
theorem keys_sublist_of_decodeMembers {declared : Members} {r : Record}
    {js : List (String × Json)} (h : decodeMembers declared r = .ok js) :
    (Fields.keys js).Sublist declared.keys := by
  induction declared generalizing js with
  | nil =>
    obtain rfl : [] = js := Except.ok.inj h
    exact .slnil
  | cons member rest ih =>
    obtain ⟨name, f⟩ := member
    by_cases hf : ∃ entity, f = .reference entity
    · obtain ⟨entity, rfl⟩ := hf
      exact .cons _ (ih h)
    · obtain ⟨o, more, -, hmore, rfl⟩ := (decodeMembers_cons fun entity e => hf ⟨entity, e⟩).1 h
      cases o with
      | none => exact .cons _ (ih hmore)
      | some v => exact .cons_cons _ (ih hmore)

section

variable {f : Field} {b : Bson} {v : Json} {members : Members} {r : Record} {name : String}
  {js : List (String × Json)}

/-- What is not left out fits. -/
theorem fits_of_decodeMember (hf : ∀ entity, f ≠ .reference entity)
    (h : f.decodeMember (some b) = .ok (some v)) : f.Fits b := by
  cases f with
  | scalar t => exact trivial
  | reference entity => exact hf entity rfl
  | _ => cases b <;> first | exact trivial | exact rfl | cases h

/-- A name is read when its value fits. -/
theorem get?_decodeMembers_iff (hd : members.Distinct) (h : decodeMembers members r = .ok js)
    (hf : members.get? name = some f) (hb : r.get? name = some b) :
    (∃ v, Fields.get? name js = some v ∧ f.decodeMember (some b) = .ok (some v)) ↔ f.Fits b := by
  constructor
  · rintro ⟨v, hv, hread⟩
    obtain ⟨g, hg, hstored, -⟩ := get?_of_decodeMembers hd h hv
    obtain rfl := Option.some.inj (hf.symm.trans hg)
    exact fits_of_decodeMember hstored hread
  · intro hfits
    have hmem := Fields.mem_of_get?_eq_some hf
    obtain ⟨o, ho⟩ := decodeMember_of_decodeMembers h hmem hfits.ne_reference
    rw [hb] at ho
    cases o with
    | none => exact absurd ho hfits.decodeMember_ne
    | some v =>
      have hdistinct : Fields.Distinct js := (keys_sublist_of_decodeMembers h).nodup hd
      refine ⟨v, (Fields.get?_eq_some_iff_mem hdistinct).2 ?_, ho⟩
      exact (mem_of_decodeMembers h).2 ⟨f, hmem, hfits.ne_reference, by rwa [hb]⟩

/-- A member that is not stored is null in what is read, if it is there. -/
theorem getD_get?_decodeMembers (hd : members.Distinct) (h : decodeMembers members r = .ok js)
    (hb : r.get? name = none) : (Fields.get? name js).getD .null = .null := by
  cases hv : Fields.get? name js with
  | none => rfl
  | some v =>
    obtain ⟨f, -, -, hread⟩ := get?_of_decodeMembers hd h hv
    rw [hb] at hread
    exact (Option.some.inj (Except.ok.inj hread)).symm

/-- A document is read as the object of its members. -/
theorem exists_of_decodeMember_document (hd : members.Distinct)
    (h : (Field.object members).decodeMember (some (.document r)) = .ok (some v)) :
    ∃ js, decodeMembers members r = .ok js ∧ v = .object js := by
  rw [decodeMember_some (by simp), decode] at h
  obtain ⟨js, hjs, h⟩ := bind_eq_ok_iff.1 h
  rw [Fields.ofList_eq_self ((keys_sublist_of_decodeMembers hjs).nodup hd)] at h
  exact ⟨js, hjs, (Option.some.inj (Except.ok.inj h)).symm⟩

end

theorem decodeItems_elementwise (t : ScalarType) :
    Elementwise (fun _ => t.decodeItems) (fun _ b => inPhase .decode (t.read b)) :=
  ⟨fun _ => rfl, fun _ _ _ => rfl⟩

/-- The JSON value of an element of an array of objects: null when it is left out. -/
def decodeElement (members : Members) (b : Bson) : Except Error Json :=
  ((Field.object members).decodeMember (some b)).map fun o => o.getD .null

/-- An element of the declared shape is not left out. -/
theorem decodeMember_of_decodeElement {members : Members} {b : Bson} {j : Json}
    (hfits : (Field.object members).Fits b) (h : decodeElement members b = .ok j) :
    (Field.object members).decodeMember (some b) = .ok (some j) := by
  cases ho : (Field.object members).decodeMember (some b) with
  | error e => simp [decodeElement, ho, Except.map] at h
  | ok o =>
    cases o with
    | none => exact absurd ho hfits.decodeMember_ne
    | some v =>
      rw [decodeElement, ho] at h
      obtain rfl : v = j := Except.ok.inj h
      rfl

theorem decodeElements_elementwise (members : Members) :
    Elementwise (fun _ => decodeElements fun nested => do
      return Fields.ofList (← decodeMembers members nested)) (fun _ => decodeElement members) := by
  refine ⟨fun _ => rfl, fun _ b rest => ?_⟩
  cases b with
  | document r =>
    rw [decodeElements, decodeElement, decodeMember_some (by simp), decode]
    cases decodeMembers members r <;> rfl
  | _ => rfl

/-- An array is read element by element, each like a field of the shape of the elements, when all of
them have that shape. -/
theorem exists_of_decodeMember_array {f g : Field} {items : List Bson} {v : Json}
    (hstep : f.step? .any = some g) (hfits : ∀ (i : Nat) b, items[i]? = some b → g.Fits b)
    (h : f.decodeMember (some (.array items)) = .ok (some v)) :
    ∃ js, v = .array js ∧ js.length = items.length ∧ ∀ (i : Nat) b j, items[i]? = some b →
      js[i]? = some j → g.decodeMember (some b) = .ok (some j) := by
  cases f with
  | scalarArray t =>
    obtain rfl : .scalar t = g := Option.some.inj hstep
    obtain ⟨js, hjs, h⟩ := bind_eq_ok_iff.1 h
    obtain ⟨hlength, hitems⟩ := ((decodeItems_elementwise t).eq_ok_iff 0).1 hjs
    refine ⟨js, (Option.some.inj (Except.ok.inj h)).symm, hlength, fun i b j hb hj => ?_⟩
    exact decodeMember_scalar.2 ⟨j, inPhase_eq_ok_iff.1 (hitems i b j hb hj), rfl⟩
  | objectArray members =>
    obtain rfl : .object members = g := Option.some.inj hstep
    obtain ⟨js, hjs, h⟩ := bind_eq_ok_iff.1 h
    obtain ⟨hlength, hitems⟩ := ((decodeElements_elementwise members).eq_ok_iff 0).1 hjs
    refine ⟨js, (Option.some.inj (Except.ok.inj h)).symm, hlength, fun i b j hb hj => ?_⟩
    exact decodeMember_of_decodeElement (hfits i b hb) (hitems i b j hb hj)
  | _ => cases hstep

/-- Where decoding succeeds, every simple value can be read. -/
theorem read_of_decodeMember {f g : Field} {b leaf : Bson} {p : Path} {t : ScalarType}
    (hreach : f.Reaches b p g leaf) (hg : g = .scalar t) {o : Option Json}
    (h : f.decodeMember (some b) = .ok o) : ∃ j, t.read leaf = .ok j := by
  induction hreach generalizing o with
  | here f b =>
    subst hg
    obtain ⟨j, hj, -⟩ := decodeMember_scalar.1 h
    exact ⟨j, hj⟩
  | @member members r key p f g b found hf hb hbelow ih =>
    obtain ⟨js, hjs, -⟩ := bind_eq_ok_iff.1 h
    have hstored : ∀ entity, f ≠ .reference entity := by
      rintro entity rfl
      cases hbelow
      cases hg
    obtain ⟨o, ho⟩ := decodeMember_of_decodeMembers hjs (Fields.mem_of_get?_eq_some hf) hstored
    exact ih hg (hb ▸ ho)
  | @scalarElement t items i p g b found hb hbelow ih =>
    obtain ⟨js, hjs, -⟩ := bind_eq_ok_iff.1 h
    obtain ⟨hlength, hitems⟩ := ((decodeItems_elementwise t).eq_ok_iff 0).1 hjs
    obtain ⟨j, hj⟩ := getElem?_of_length hlength hb
    exact ih hg (decodeMember_scalar.2 ⟨j, inPhase_eq_ok_iff.1 (hitems i b j hb hj), rfl⟩)
  | @objectElement members items i p g b found hb hbelow ih =>
    obtain ⟨js, hjs, -⟩ := bind_eq_ok_iff.1 h
    obtain ⟨hlength, hitems⟩ := ((decodeElements_elementwise members).eq_ok_iff 0).1 hjs
    obtain ⟨j, hj⟩ := getElem?_of_length hlength hb
    have helement := hitems i b j hb hj
    rw [decodeElement] at helement
    cases ho : (Field.object members).decodeMember (some b) with
    | error e => simp [ho, Except.map] at helement
    | ok o => exact ih hg ho

end Field

end Docstore
