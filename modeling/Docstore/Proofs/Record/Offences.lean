import Docstore.Proofs.Record.NormalForm
import Docstore.Proofs.Record.Saving
import Docstore.Proofs.Refusal

/-!
# Documents that cannot be stored

Encoding stores all of a document or refuses the document for the first value that is wrong.

* `Visit` : a value of a document with what is declared for it;
* `Visit.Offence` : what is wrong with a value itself, and the error for it;
* `Entity.visits` : the declared part of a document value by value, each value before those inside
  it and all of them in the order of the document;
* `Mapper.StoredForm` : how a value is stored, the values inside it aside;
* `Mapper.encodeAs_first_offence` : exactly the documents without offences are stored, value by
  value, and the others are refused for the first offence.

The walk over a document and the list of its values have the same recursion, so each part of the
walk refuses the list of what it visits (`Refuses`).
-/

namespace Docstore

/-- A value of a document, its path, and what is declared for it, if anything is. -/
structure Visit where
  path : Path
  declared : Option Field
  value : Json

/-- What is wrong with a value itself, whatever is inside it. -/
inductive Visit.Offence : Visit → Error → Prop where
  | undeclared {path : Path} {v : Json} : Offence ⟨path, none, v⟩ (.invalidField path)
  /-- References are never stored, not even as null. -/
  | reference {path : Path} {entity : String} {v : Json} :
      Offence ⟨path, some (.reference entity), v⟩ (.referenceField path entity)
  | notObject {path : Path} {members : Members} {v : Json} (hnull : v ≠ .null)
      (h : ∀ d, v ≠ .object d) : Offence ⟨path, some (.object members), v⟩ (.invalidField path)
  | notArray {path : Path} {f : Field} {v : Json} (hf : (Node.field f).isArray = true)
      (hnull : v ≠ .null) (h : ∀ items, v ≠ .array items) :
      Offence ⟨path, some f, v⟩ (.invalidField path)
  | notCast {path : Path} {t : ScalarType} {v : Json} {cause : CastError}
      (h : t.cast v = .error cause) :
      Offence ⟨path, some (.scalar t), v⟩ (.conversion .encode cause)

namespace Field

mutual

/-- The values inside a value of a field at `path`. There are none inside a value of another
shape. -/
def visits (path : Path) : Field → Json → List Visit
  | .object members, .object d => memberVisits members path d
  | .scalarArray t, .array items => itemVisits (.scalar t) path 0 items
  | .objectArray members, .array items => itemVisits (.object members) path 0 items
  | _, _ => []

/-- The members of an object at `path`, each with the values inside it. -/
def memberVisits (declared : Members) (path : Path) : List (String × Json) → List Visit
  | [] => []
  | (name, v) :: rest =>
    let here := path.child (.name name)
    match declared.get? name with
    | none => ⟨here, none, v⟩ :: memberVisits declared path rest
    | some f => ⟨here, some f, v⟩ :: (visits here f v ++ memberVisits declared path rest)

/-- The elements of an array at `path` from index `i` on, each with the values inside it. -/
def itemVisits (element : Field) (path : Path) : (i : Nat) → List Json → List Visit
  | _, [] => []
  | i, item :: rest =>
    let here := path.child (.index i)
    ⟨here, some element, item⟩ ::
      (visits here element item ++ itemVisits element path (i + 1) rest)

end

end Field

/-- The values of a document, its members first and outer ones before inner ones. -/
def Entity.visits (e : Entity) (d : Json) : List Visit := (Field.object e.members).visits .root d

/-- The stored form of a value at a path of a document. Objects keep their keys in order and arrays
their lengths; the identifier of the document takes its one form. -/
inductive Mapper.StoredForm (m : Mapper) (p : Path) : Field → Json → Bson → Prop where
  | null {f : Field} : StoredForm m p f .null .null
  | document {members : Members} {d : List (String × Json)} {r : Record}
      (keys : Fields.keys r = Fields.keys d) :
      StoredForm m p (.object members) (.object d) (.document r)
  | array {f : Field} {items : List Json} {stored : List Bson}
      (hf : (Node.field f).isArray = true) (length : stored.length = items.length) :
      StoredForm m p f (.array items) (.array stored)
  | scalar {t : ScalarType} {v : Json} {c : Canonical} (hnull : v ≠ .null) (hc : t.cast v = .ok c) :
      StoredForm m p (.scalar t) v
        (if p = [.name m.options.idField] then c.stored.asIdentifier else c.stored)

/-- A step leads into a field of type `f`. Any name leads into an object. -/
def Field.Enters (f : Field) (s : Segment) : Prop :=
  f.step? s = none → ∃ members name, f = .object members ∧ s = .name name

/-- A visit is to a value in an object or in an array that is declared. -/
def Visit.Within (x : Visit) (path : Path) (f : Field) (v : Json) : Prop :=
  ∃ p s container, x.path = path ++ p.child s ∧ f.follow? p = some container ∧
    container.Enters s ∧ container.step? s = x.declared ∧ v.follow? (p.child s) = some x.value

variable {m : Mapper} {e : Entity} {path : Path} {f : Field} {v : Json}

/-! ### Offences -/

namespace Visit

theorem offence_unique (x : Visit) (err err' : Error) (h : x.Offence err) (h' : x.Offence err') :
    err = err' := by
  cases h with
  | undeclared => cases h'; rfl
  | reference =>
    cases h' with
    | reference => rfl
    | notArray hf => cases hf
  | notObject =>
    cases h' with
    | notObject => rfl
    | notArray => rfl
  | notArray hf =>
    cases h' with
    | notObject => rfl
    | notArray => rfl
    | reference => cases hf
    | notCast => cases hf
  | notCast h =>
    cases h' with
    | notCast h' => rw [Except.error.inj (h.symm.trans h')]
    | notArray hf => cases hf

end Visit

namespace Field

theorem visits_null (path : Path) (f : Field) : f.visits path .null = [] := by
  cases f <;> rfl

theorem visits_scalar (path : Path) (t : ScalarType) (v : Json) :
    (Field.scalar t).visits path v = [] := by
  cases v <;> rfl

end Field

namespace Mapper

/-- Null is no offence but for references. -/
theorem not_offence_null (hf : ∀ entity, f ≠ .reference entity) (err : Error) :
    ¬ Visit.Offence ⟨path, some f, .null⟩ err := by
  intro h
  cases h with
  | reference => exact hf _ rfl
  | notObject hnull => exact hnull rfl
  | notArray _ hnull => exact hnull rfl
  | @notCast _ t _ _ h =>
    rw [ScalarType.cast_null] at h
    cases h

theorem not_offence_object {members : Members} {d : List (String × Json)} (err : Error) :
    ¬ Visit.Offence ⟨path, some (.object members), .object d⟩ err := by
  intro h
  cases h with
  | notObject _ h => exact h d rfl
  | notArray hf => cases hf

theorem not_offence_array {items : List Json} (hf : (Node.field f).isArray = true) (err : Error) :
    ¬ Visit.Offence ⟨path, some f, .array items⟩ err := by
  intro h
  cases h with
  | reference => cases hf
  | notObject => cases hf
  | notArray _ _ h => exact h items rfl
  | notCast => cases hf

theorem refuses_encodeScalar (t : ScalarType) (path : Path) (v : Json) :
    Refuses Visit.Offence (m.encodeScalar t path v) [⟨path, some (.scalar t), v⟩] := by
  cases hcast : t.cast v with
  | error cause =>
    rw [encodeScalar, hcast]
    exact .stop (.notCast hcast) []
  | ok c =>
    refine .accepted ⟨_, encodeScalar_eq_ok_iff.2 ⟨c, hcast, rfl⟩⟩ ?_
    rw [List.forall_mem_singleton]
    intro err h
    cases h with
    | notArray hf => cases hf
    | notCast h => cases hcast.symm.trans h

mutual

/-- Encoding a field refuses its value and what is inside it. -/
theorem refuses_encodeField : ∀ (f : Field) (path : Path) (v : Json),
    Refuses Visit.Offence (m.encodeField path f v) (⟨path, some f, v⟩ :: f.visits path v)
  | .scalar t, path, v => by
    rw [encodeField, Field.visits_scalar]
    exact refuses_encodeScalar t path v
  | .reference entity, path, v => by
    rw [encodeField]
    exact .stop .reference _
  | .object members, path, v => by
    cases v with
    | null =>
      rw [encodeField, Field.visits_null]
      exact (Refuses.pass _).cons (not_offence_null (by simp))
    | object d =>
      rw [encodeField, Field.visits]
      exact ((refuses_encodeMembers members path d).map Bson.document).cons not_offence_object
    | _ => exact .stop (.notObject (by simp) (by simp)) _
  | .scalarArray t, path, v => by
    cases v with
    | null =>
      rw [encodeField, Field.visits_null]
      exact (Refuses.pass _).cons (not_offence_null (by simp))
    | array items =>
      rw [encodeField, Field.visits]
      have hstep : ∀ (i : Nat) item, m.encodeScalar t (path.child (.index i)) item =
          m.encodeField (path.child (.index i)) (.scalar t) item := fun i item => by
        rw [encodeField]
      exact ((refuses_items (encodeScalars_elementwise t path) (.scalar t) hstep 0 items).map
        Bson.array).cons (not_offence_array rfl)
    | _ => exact .stop (.notArray rfl (by simp) (by simp)) _
  | .objectArray members, path, v => by
    cases v with
    | null =>
      rw [encodeField, Field.visits_null]
      exact (Refuses.pass _).cons (not_offence_null (by simp))
    | array items =>
      rw [encodeField, Field.visits]
      exact ((refuses_items (encodeElements_elementwise members path) (.object members)
        (fun i item => rfl) 0 items).map Bson.array).cons (not_offence_array rfl)
    | _ => exact .stop (.notArray rfl (by simp) (by simp)) _

theorem refuses_encodeMembers : ∀ (declared : Members) (path : Path) (d : List (String × Json)),
    Refuses Visit.Offence (m.encodeMembers declared path d) (Field.memberVisits declared path d)
  | declared, path, [] => by
    rw [encodeMembers, Field.memberVisits]
    exact .pass []
  | declared, path, (name, v) :: rest => by
    rw [Field.memberVisits]
    cases hf : declared.get? name with
    | none =>
      rw [encodeMembers, hf]
      exact .stop .undeclared _
    | some f =>
      -- The member, what is inside it, and then the other members.
      rw [encodeMembers_cons hf]
      exact (refuses_encodeField f _ v).bind fun b =>
        (refuses_encodeMembers declared path rest).map _

/-- The walks over simple elements and over rows take their step for each element. -/
theorem refuses_items : ∀ {path : Path} {walk : Nat → List Json → Except Error (List Bson)}
    {step : Nat → Json → Except Error Bson} (_ : Elementwise walk step) (element : Field)
    (_ : ∀ i item, step i item = m.encodeField (path.child (.index i)) element item) (i : Nat)
    (items : List Json),
    Refuses Visit.Offence (walk i items) (element.itemVisits path i items)
  | path, walk, step, hwalk, element, hstep, i, [] => by
    rw [hwalk.nil, Field.itemVisits]
    exact .pass []
  | path, walk, step, hwalk, element, hstep, i, item :: rest => by
    rw [hwalk.cons, hstep, Field.itemVisits]
    exact (refuses_encodeField element _ item).bind fun b =>
      (refuses_items hwalk element hstep (i + 1) rest).map _

end

/-- A document that is no object has no values. -/
theorem encodeAs_of_not_object {d : Json} (hd : ¬ ∃ members, d = .object members) :
    m.encodeAs e d = .error (.notAnObject d) ∧ e.visits d = [] := by
  cases d with
  | object members => exact absurd ⟨members, rfl⟩ hd
  | _ => exact ⟨rfl, rfl⟩

/-! ### Stored forms -/

theorem Encodes.storedForm {b : Bson} (h : m.Encodes path f v b) : m.StoredForm path f v b := by
  cases h with
  | @scalar _ t _ _ h =>
    by_cases hnull : v = .null
    · subst hnull
      obtain rfl := Except.ok.inj ((encodeScalar_null t path).symm.trans h)
      exact .null
    · obtain ⟨c, hc, rfl⟩ := encodeScalar_eq_ok_iff.1 h
      have hform := StoredForm.scalar (m := m) (p := path) hnull hc
      simpa [isIdPath] using hform
  | null => exact .null
  | object keys => exact .document keys
  | scalarArray length => exact .array rfl length
  | objectArray length => exact .array rfl length

end Mapper

/-! ### Positions of visits -/

theorem Visit.Within.below {s : Segment} {g : Field} {w : Json} {x : Visit}
    (hf : f.step? s = some g) (hv : v.step? s = some w) (h : x.Within (path.child s) g w) :
    x.Within path f v := by
  obtain ⟨p, last, container, hpath, hcontainer, henters, hdeclared, hvalue⟩ := h
  refine ⟨s :: p, last, container, ?_, ?_, henters, hdeclared, ?_⟩
  · rw [hpath, Path.child, List.append_assoc]
    rfl
  · rw [Field.follow?, hf]
    exact hcontainer
  · exact Option.bind_eq_some_iff.2 ⟨w, hv, hvalue⟩

theorem Visit.Within.here {s : Segment} {declared : Option Field} {w : Json}
    (henters : f.Enters s) (hf : f.step? s = declared) (hv : v.step? s = some w) :
    Visit.Within ⟨path.child s, declared, w⟩ path f v :=
  ⟨[], s, f, rfl, rfl, henters, hf, Option.bind_eq_some_iff.2 ⟨w, hv, rfl⟩⟩

namespace Field

theorem enters_of_step? {s : Segment} {g : Field} (h : f.step? s = some g) : f.Enters s := by
  intro hnone
  rw [h] at hnone
  cases hnone

theorem within_of_items {element : Field} {items : List Json} {x : Visit}
    (hstep : ∀ i, f.step? (.index i) = some element)
    (h : ∃ i w, items[i]? = some w ∧ (x = ⟨path.child (.index (0 + i)), some element, w⟩ ∨
      x.Within (path.child (.index (0 + i))) element w)) : x.Within path f (.array items) := by
  obtain ⟨i, w, hw, h⟩ := h
  rw [Nat.zero_add] at h
  rcases h with rfl | h
  · exact .here (enters_of_step? (hstep i)) (hstep i) hw
  · exact h.below (hstep i) hw

mutual

theorem within_of_mem_visits : ∀ {f : Field} {path : Path} {v : Json} {x : Visit},
    v.WellFormed → x ∈ f.visits path v → x.Within path f v
  | .scalar t, path, v, x, _, hx => by
    rw [visits_scalar] at hx
    cases hx
  | .reference entity, path, v, x, _, hx => by
    cases v <;> cases hx
  | .object members, path, v, x, hv, hx => by
    cases v with
    | object d =>
      rw [visits] at hx
      obtain ⟨name, w, hw, h⟩ := exists_of_mem_memberVisits hv.1 hv.2 hx
      rcases h with rfl | ⟨g, hg, h⟩
      · exact .here (fun _ => ⟨members, name, rfl, rfl⟩) rfl hw
      · exact h.below (s := .name name) hg hw
    | _ => cases hx
  | .scalarArray t, path, v, x, hv, hx => by
    cases v with
    | array items =>
      rw [visits] at hx
      exact within_of_items (fun i => rfl) (exists_of_mem_itemVisits hv hx)
    | _ => cases hx
  | .objectArray members, path, v, x, hv, hx => by
    cases v with
    | array items =>
      rw [visits] at hx
      exact within_of_items (fun i => rfl) (exists_of_mem_itemVisits hv hx)
    | _ => cases hx

theorem exists_of_mem_memberVisits : ∀ {declared : Members} {path : Path}
    {d : List (String × Json)} {x : Visit}, Fields.Distinct d → Json.MembersWellFormed d →
      x ∈ memberVisits declared path d → ∃ name w, Fields.get? name d = some w ∧
        (x = ⟨path.child (.name name), declared.get? name, w⟩ ∨
          ∃ g, declared.get? name = some g ∧ x.Within (path.child (.name name)) g w)
  | declared, path, [], x, _, _, hx => by cases hx
  | declared, path, (name, v) :: rest, x, hd, hv, hx => by
    obtain ⟨hfresh, hrest⟩ := List.nodup_cons.1 hd
    -- The name does not come again, so a later member is still found by its own.
    have hlater (hx : x ∈ memberVisits declared path rest) :
        ∃ key w, Fields.get? key ((name, v) :: rest) = some w ∧
          (x = ⟨path.child (.name key), declared.get? key, w⟩ ∨
            ∃ g, declared.get? key = some g ∧ x.Within (path.child (.name key)) g w) := by
      obtain ⟨key, w, hw, h⟩ := exists_of_mem_memberVisits hrest hv.2 hx
      have hne : name ≠ key := by
        intro heq
        subst heq
        rw [Fields.get?_eq_none_iff.2 hfresh] at hw
        cases hw
      exact ⟨key, w, (Fields.get?_cons_of_ne hne v rest).trans hw, h⟩
    have hself : Fields.get? name ((name, v) :: rest) = some v := Fields.get?_cons_self _ _ _
    rw [memberVisits] at hx
    cases hf : declared.get? name with
    | none =>
      rw [hf] at hx
      rcases List.mem_cons.1 hx with rfl | hx
      · exact ⟨name, v, hself, .inl (by rw [hf])⟩
      · exact hlater hx
    | some g =>
      rw [hf] at hx
      rcases List.mem_cons.1 hx with rfl | hx
      · exact ⟨name, v, hself, .inl (by rw [hf])⟩
      rcases List.mem_append.1 hx with hx | hx
      · exact ⟨name, v, hself, .inr ⟨g, hf, within_of_mem_visits hv.1 hx⟩⟩
      · exact hlater hx

theorem exists_of_mem_itemVisits : ∀ {element : Field} {path : Path} {i : Nat}
    {items : List Json} {x : Visit}, Json.AllWellFormed items →
      x ∈ element.itemVisits path i items → ∃ j w, items[j]? = some w ∧
        (x = ⟨path.child (.index (i + j)), some element, w⟩ ∨
          x.Within (path.child (.index (i + j))) element w)
  | element, path, i, [], x, _, hx => by cases hx
  | element, path, i, item :: rest, x, hv, hx => by
    rw [itemVisits] at hx
    rcases List.mem_cons.1 hx with rfl | hx
    · exact ⟨0, item, rfl, .inl rfl⟩
    rcases List.mem_append.1 hx with hx | hx
    · exact ⟨0, item, rfl, .inr (within_of_mem_visits hv.1 hx)⟩
    · obtain ⟨j, w, hw, h⟩ := exists_of_mem_itemVisits hv.2 hx
      rw [Nat.add_assoc, Nat.add_comm 1 j] at h
      exact ⟨j + 1, w, hw, h⟩

end

/-- A member is visited, and so is what is inside it. -/
theorem mem_memberVisits {declared : Members} {d : List (String × Json)} {name : String} {w : Json}
    (hw : Fields.get? name d = some w) :
    ⟨path.child (.name name), declared.get? name, w⟩ ∈ memberVisits declared path d ∧
      ∀ g, declared.get? name = some g →
        g.visits (path.child (.name name)) w ⊆ memberVisits declared path d := by
  induction d with
  | nil => cases hw
  | cons member rest ih =>
    obtain ⟨key, value⟩ := member
    have hrest : memberVisits declared path rest ⊆
        memberVisits declared path ((key, value) :: rest) := by
      rw [memberVisits]
      cases declared.get? key with
      | none => exact List.subset_cons_self _ _
      | some f => exact List.subset_cons_of_subset _ (List.subset_append_right _ _)
    by_cases hkey : key = name
    · subst hkey
      obtain rfl : value = w := Option.some.inj ((Fields.get?_cons_self _ _ _).symm.trans hw)
      rw [memberVisits]
      cases hf : declared.get? key with
      | none => exact ⟨List.mem_cons_self, by simp⟩
      | some f =>
        refine ⟨List.mem_cons_self, fun g hg => ?_⟩
        obtain rfl := Option.some.inj hg
        exact List.subset_cons_of_subset _ (List.subset_append_left _ _)
    · rw [Fields.get?_cons_of_ne hkey] at hw
      obtain ⟨hmem, hbelow⟩ := ih hw
      exact ⟨hrest hmem, fun g hg => List.Subset.trans (hbelow g hg) hrest⟩

/-- An element is visited, and so is what is inside it. -/
theorem mem_itemVisits {element : Field} {items : List Json} {i : Nat} {w : Json}
    (hw : items[i]? = some w) (start : Nat) :
    ⟨path.child (.index (start + i)), some element, w⟩ ∈ element.itemVisits path start items ∧
      element.visits (path.child (.index (start + i))) w ⊆ element.itemVisits path start items := by
  induction items generalizing i start with
  | nil => cases hw
  | cons item rest ih =>
    rw [itemVisits]
    cases i with
    | zero =>
      obtain rfl : item = w := Option.some.inj hw
      exact ⟨List.mem_cons_self, List.subset_cons_of_subset _ (List.subset_append_left _ _)⟩
    | succ i =>
      obtain ⟨hmem, hbelow⟩ := ih (List.getElem?_cons_succ.symm.trans hw) (start + 1)
      rw [Nat.add_assoc, Nat.add_comm 1 i] at hmem hbelow
      have hrest : element.itemVisits path (start + 1) rest ⊆
          ⟨path.child (.index start), some element, item⟩ ::
            (element.visits (path.child (.index start)) item ++
              element.itemVisits path (start + 1) rest) :=
        List.subset_cons_of_subset _ (List.subset_append_right _ _)
      exact ⟨hrest hmem, List.Subset.trans hbelow hrest⟩

/-- A step into a value leads to a visited value, and everything inside that one is visited. -/
theorem mem_visits_of_step? {s : Segment} {w : Json} (henters : f.Enters s)
    (hv : v.step? s = some w) :
    ⟨path.child s, f.step? s, w⟩ ∈ f.visits path v ∧
      ∀ g, f.step? s = some g → g.visits (path.child s) w ⊆ f.visits path v := by
  have hitems {items : List Json} {i : Nat} (element : Field) (hw : items[i]? = some w) :
      ⟨path.child (.index i), some element, w⟩ ∈ element.itemVisits path 0 items ∧
        ∀ g, some element = some g →
          g.visits (path.child (.index i)) w ⊆ element.itemVisits path 0 items := by
    rw [← Nat.zero_add i]
    obtain ⟨hmem, hbelow⟩ := mem_itemVisits hw 0
    refine ⟨hmem, fun g hg => ?_⟩
    obtain rfl := Option.some.inj hg
    exact hbelow
  cases f with
  | object members =>
    cases s with
    | name key =>
      cases v with
      | object d =>
        rw [visits]
        exact mem_memberVisits hv
      | _ => cases hv
    | _ => obtain ⟨_, _, _, hs⟩ := henters rfl; cases hs
  | scalarArray t =>
    cases s with
    | index i =>
      cases v with
      | array items =>
        rw [visits]
        exact hitems (.scalar t) hv
      | _ => cases hv
    | any => cases hv
    | name key => obtain ⟨_, _, hf, _⟩ := henters rfl; cases hf
  | objectArray members =>
    cases s with
    | index i =>
      cases v with
      | array items =>
        rw [visits]
        exact hitems (.object members) hv
      | _ => cases hv
    | any => cases hv
    | name key => obtain ⟨_, _, hf, _⟩ := henters rfl; cases hf
  | _ => obtain ⟨_, _, hf, _⟩ := henters rfl; cases hf

/-- What stands in a declared object or array is visited, and nothing else is. -/
theorem mem_visits_iff (hv : v.WellFormed) {x : Visit} :
    x ∈ f.visits path v ↔ x.Within path f v := by
  refine ⟨within_of_mem_visits hv, ?_⟩
  rintro ⟨p, s, container, hpath, hcontainer, henters, hdeclared, hvalue⟩
  obtain ⟨xpath, declared, value⟩ := x
  subst hpath hdeclared
  -- Induction on the path of the container: each step goes into what is visited.
  clear hv
  induction p generalizing path f v with
  | nil =>
    obtain rfl : f = container := Option.some.inj hcontainer
    obtain ⟨w, hw, hvalue⟩ := Option.bind_eq_some_iff.1 hvalue
    obtain rfl : w = value := Option.some.inj hvalue
    exact (mem_visits_of_step? henters hw).1
  | cons first rest ih =>
    obtain ⟨g, hg, hcontainer⟩ := Option.bind_eq_some_iff.1 hcontainer
    obtain ⟨w, hw, hvalue⟩ := Option.bind_eq_some_iff.1 hvalue
    have hmem := @ih (path.child first) g w hcontainer hvalue
    rw [Path.child, List.append_assoc] at hmem
    exact (mem_visits_of_step? (enters_of_step? hg) hw).2 g hg hmem

end Field

/-! ### The first offence -/

namespace Mapper

theorem refuses_encodeAs {d : Json} (hd : ∃ members, d = .object members) :
    Refuses Visit.Offence (m.encodeAs e d) (e.visits d) := by
  obtain ⟨members, rfl⟩ := hd
  rw [encodeAs, Entity.visits, Field.visits]
  exact refuses_encodeMembers e.members .root members

/-- What is stored at a position of a record is the stored form of the value there. -/
theorem exists_storedForm {d v : Json} {r : Record} {p : Path} {c : Cursor}
    (h : m.encodeAs e d = .ok r) (hc : e.resolve? p = some c) (hv : d.follow? p = some v) :
    ∃ b, Bson.follow? p (.document r) = some b ∧ m.StoredForm p c.node.asField v b := by
  have hdeclared : (Field.object e.members).follow? p = some c.node.asField := by
    rw [← e.resolve?_asField, hc]
    rfl
  obtain ⟨b, hb, hencodes⟩ := (Entity.encodes_of_encodeAs h).follow? hdeclared hv
  exact ⟨b, hb, hencodes.storedForm⟩

/-- A document is stored exactly when it is an object and no value in it offends, and then every
value at a declared position is stored there in its stored form. Any other document is refused for
its first offence, or for being no object. The values that count are those in the declared objects
and arrays of the document. -/
theorem encodeAs_first_offence (m : Mapper) (e : Entity) (d : Json) :
    ((∃ r, m.encodeAs e d = .ok r) ↔
        (∃ members, d = .object members) ∧ ∀ x ∈ e.visits d, ∀ err, ¬ x.Offence err) ∧
      (∀ err, m.encodeAs e d = .error err ↔
        (¬ ∃ members, d = .object members) ∧ err = .notAnObject d ∨
          FirstOf Visit.Offence (e.visits d) err) ∧
      (∀ r, m.encodeAs e d = .ok r → ∀ p c v, e.resolve? p = some c → d.follow? p = some v →
        ∃ b, Bson.follow? p (.document r) = some b ∧ m.StoredForm p c.node.asField v b) ∧
      (d.WellFormed → ∀ x, x ∈ e.visits d ↔ x.Within .root (.object e.members) d) := by
  refine ⟨?_, fun err => ?_, fun r h p c v => exists_storedForm h, fun hd x =>
    Field.mem_visits_iff hd⟩
  · by_cases hd : ∃ members, d = .object members
    · rw [(refuses_encodeAs hd).exists_ok_iff, and_iff_right hd]
    · refine iff_of_false ?_ fun h => hd h.1
      rw [(encodeAs_of_not_object hd).1]
      simp
  · by_cases hd : ∃ members, d = .object members
    · rw [(refuses_encodeAs hd).eq_error_iff Visit.offence_unique, or_iff_right fun h => h.1 hd]
    · obtain ⟨herr, hvisits⟩ := encodeAs_of_not_object (m := m) (e := e) hd
      have hnone : ¬ FirstOf Visit.Offence (e.visits d) err := by
        rw [hvisits]
        intro h
        cases h
      rw [or_iff_left hnone, and_iff_right hd, herr, Except.error.injEq, eq_comm]

/-- A value that cannot be cast, in a row, comes before a later undeclared member. -/
theorem encodeAs_first_offence_rows :
    let e : Entity := ⟨"table", [("rows", .objectArray [("size", .scalar .integer)]),
      ("owner", .reference "user")]⟩
    let m : Mapper := { entities := [] }
    let d : Json := .object [("rows", .array [.null, .object [("size", .string "wide")]]),
      ("note", .null)]
    (e.visits d).map Visit.path = [[.name "rows"], [.name "rows", .index 0],
      [.name "rows", .index 1], [.name "rows", .index 1, .name "size"], [.name "note"]] ∧
      m.encodeAs e d = .error (.conversion .encode (.json (.string "wide") .integer)) := by
  intro e m d
  refine ⟨rfl, ((encodeAs_first_offence m e d).2.1 _).2 (.inr ?_)⟩
  exact .later (not_offence_array rfl) (.later (not_offence_null (by simp))
    (.later not_offence_object (.here (.notCast rfl))))

end Mapper

end Docstore
