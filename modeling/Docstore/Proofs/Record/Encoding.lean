import Docstore.Proofs.Entity.Listing
import Docstore.Proofs.Except
import Docstore.Proofs.Fields
import Docstore.Record.Encode

/-!
# What encoding does

* `Mapper.Encodes` : the stored form of a value, with members found by name on both sides;
* `Mapper.Encodes.of_encodeField` : what encoding gives is such a form.
-/

namespace Docstore.Mapper

variable {m : Mapper}

/-- The stored form `b` of a value of a field at `path`. An object keeps its keys, all of them
declared, and an array its length; the elements of an array are encoded like fields of their
shape. -/
inductive Encodes (m : Mapper) : Path → Field → Json → Bson → Prop
  | scalar {path : Path} {t : ScalarType} {v : Json} {b : Bson}
      (h : m.encodeScalar t path v = .ok b) : Encodes m path (.scalar t) v b
  | null {path : Path} {f : Field} (h : ∀ entity, f ≠ .reference entity) :
      Encodes m path f .null .null
  | object {path : Path} {members : Members} {d : Fields Json} {r : Record}
      (keys : Fields.keys r = Fields.keys d)
      (declared : ∀ name ∈ Fields.keys d, members.get? name ≠ none)
      (below : ∀ name f v b, members.get? name = some f → Fields.get? name d = some v →
        Fields.get? name r = some b → Encodes m (path.child (.name name)) f v b) :
      Encodes m path (.object members) (.object d) (.document r)
  | scalarArray {path : Path} {t : ScalarType} {items : List Json} {stored : List Bson}
      (length : stored.length = items.length)
      (below : ∀ (i : Nat) v b, items[i]? = some v → stored[i]? = some b →
        Encodes m (path.child (.index i)) (.scalar t) v b) :
      Encodes m path (.scalarArray t) (.array items) (.array stored)
  | objectArray {path : Path} {members : Members} {items : List Json} {stored : List Bson}
      (length : stored.length = items.length)
      (below : ∀ (i : Nat) v b, items[i]? = some v → stored[i]? = some b →
        Encodes m (path.child (.index i)) (.object members) v b) :
      Encodes m path (.objectArray members) (.array items) (.array stored)

theorem encodeScalar_null (t : ScalarType) (path : Path) :
    m.encodeScalar t path .null = .ok .null := by
  rw [encodeScalar, ScalarType.cast_null]
  rfl

theorem encodeField_null {f : Field} (h : ∀ entity, f ≠ .reference entity) (path : Path) :
    m.encodeField path f .null = .ok .null := by
  cases f with
  | scalar t =>
    rw [encodeField]
    exact encodeScalar_null t path
  | reference entity => exact absurd rfl (h entity)
  | _ => rw [encodeField]

theorem isIdPath_child_index (m : Mapper) (path : Path) (i : Nat) :
    m.isIdPath (path.child (.index i)) = false := by
  rw [isIdPath, beq_eq_false_iff_ne]
  intro h
  have hlast : Segment.index i = .name m.options.idField := by
    simpa [Path.child] using congrArg List.getLast? h
  cases hlast

theorem isIdPath_child_any (m : Mapper) (p : Path) : m.isIdPath (p.child .any) = false := by
  rw [isIdPath, beq_eq_false_iff_ne]
  intro h
  have hlast : Segment.any = .name m.options.idField := by
    simpa [Path.child] using congrArg List.getLast? h
  cases hlast

theorem isIdPath_labels (m : Mapper) (p : Path) : m.isIdPath p.labels = m.isIdPath p := by
  rw [Bool.eq_iff_iff, isIdPath, isIdPath, beq_iff_eq, beq_iff_eq]
  refine ⟨Path.eq_of_labels_eq_name, ?_⟩
  rintro rfl
  rfl

/-- The elements of an array of simple values are encoded like simple fields. -/
theorem encodeScalar_element (t : ScalarType) (path : Path) (i : Nat) (v : Json) :
    m.encodeScalar t (path.child (.index i)) v =
      (inPhase .encode (t.cast v)).map Canonical.stored := by
  rw [encodeScalar, isIdPath_child_index]
  cases inPhase .encode (t.cast v) with
  | error e => rfl
  | ok c => cases c <;> rfl

theorem encodeScalars_elementwise (t : ScalarType) (path : Path) :
    Elementwise (fun _ => encodeScalars t)
      (fun i v => m.encodeScalar t (path.child (.index i)) v) := by
  refine ⟨fun start => rfl, fun start v rest => ?_⟩
  rw [encodeScalar_element, encodeScalars]
  cases inPhase .encode (t.cast v) <;> rfl

/-- An element of an array of objects is encoded like an object. -/
theorem encodeElement_eq (declared : Members) (path : Path) (item : Json) :
    m.encodeElement declared path item = m.encodeField path (.object declared) item := by
  cases item <;> simp [encodeElement, encodeField]

theorem encodeElements_elementwise (declared : Members) (path : Path) :
    Elementwise (m.encodeElements declared path)
      (fun i item => m.encodeField (path.child (.index i)) (.object declared) item) := by
  refine ⟨fun start => by rw [encodeElements], fun start item rest => ?_⟩
  rw [encodeElements, encodeElement_eq]

theorem encodeMembers_nil (declared : Members) (path : Path) :
    m.encodeMembers declared path [] = .ok [] := by
  rw [encodeMembers]

theorem encodeMembers_cons {declared : Members} {name : String} {f : Field}
    (h : declared.get? name = some f) (path : Path) (v : Json) (rest : List (String × Json)) :
    m.encodeMembers declared path ((name, v) :: rest) =
      m.encodeField (path.child (.name name)) f v >>= fun b =>
        (m.encodeMembers declared path rest).map fun more => (name, b) :: more := by
  rw [encodeMembers, h]
  rfl

/-- An object is encoded member by member, and only if all of them are declared. -/
theorem encodeMembers_cons_eq_ok_iff {declared : Members} {path : Path} {name : String} {v : Json}
    {rest : List (String × Json)} {r : Record} :
    m.encodeMembers declared path ((name, v) :: rest) = .ok r ↔
      ∃ f b more, declared.get? name = some f ∧
        m.encodeField (path.child (.name name)) f v = .ok b ∧
        m.encodeMembers declared path rest = .ok more ∧ (name, b) :: more = r := by
  constructor
  · intro h
    cases hf : declared.get? name with
    | none =>
      rw [encodeMembers, hf] at h
      cases h
    | some f =>
      rw [encodeMembers_cons hf] at h
      obtain ⟨b, hb, h⟩ := bind_eq_ok_iff.1 h
      obtain ⟨more, hmore, hr⟩ := map_eq_ok_iff.1 h
      exact ⟨f, b, more, rfl, hb, hmore, hr⟩
  · rintro ⟨f, b, more, hf, hb, hmore, rfl⟩
    rw [encodeMembers_cons hf, hb, hmore]
    rfl

/-- What encoding stores under a name. -/
theorem get?_of_encodeMembers {declared : Members} {path : Path} {d : List (String × Json)}
    {r : Record} (h : m.encodeMembers declared path d = .ok r) {name : String} {v : Json}
    (hv : Fields.get? name d = some v) :
    ∃ f b, declared.get? name = some f ∧ m.encodeField (path.child (.name name)) f v = .ok b ∧
      r.get? name = some b := by
  induction d generalizing r with
  | nil => cases hv
  | cons member rest ih =>
    obtain ⟨key, value⟩ := member
    obtain ⟨f, b, more, hkey, hb, hmore, rfl⟩ := encodeMembers_cons_eq_ok_iff.1 h
    by_cases hname : key = name
    · subst hname
      obtain rfl : value = v := Option.some.inj ((Fields.get?_cons_self _ _ _).symm.trans hv)
      exact ⟨f, b, hkey, hb, Fields.get?_cons_self _ _ _⟩
    · rw [Fields.get?_cons_of_ne hname] at hv ⊢
      exact ih hmore hv

/-- An object whose members can all be encoded can be. -/
theorem encodeMembers_of_forall {declared : Members} {path : Path} {d : List (String × Json)}
    (h : ∀ name v, (name, v) ∈ d → ∃ f b, declared.get? name = some f ∧
      m.encodeField (path.child (.name name)) f v = .ok b) :
    ∃ r, m.encodeMembers declared path d = .ok r := by
  induction d with
  | nil => exact ⟨[], encodeMembers_nil declared path⟩
  | cons member rest ih =>
    obtain ⟨name, v⟩ := member
    obtain ⟨f, b, hf, hb⟩ := h name v List.mem_cons_self
    obtain ⟨more, hmore⟩ := ih fun key w hmem => h key w (List.mem_cons_of_mem _ hmem)
    exact ⟨(name, b) :: more, encodeMembers_cons_eq_ok_iff.2 ⟨f, b, more, hf, hb, hmore, rfl⟩⟩

mutual

/-- What encoding gives is a stored form. -/
theorem Encodes.of_encodeField : ∀ {path : Path} {f : Field} {v : Json} {b : Bson},
    m.encodeField path f v = .ok b → m.Encodes path f v b
  | path, .scalar t, v, b, h => .scalar (by simpa [encodeField] using h)
  | path, .reference entity, v, b, h => by simp [encodeField] at h
  | path, .object members, .null, b, h => by
    obtain rfl : .null = b := by simpa [encodeField] using h
    exact .null fun entity e => by cases e
  | path, .object members, .object nested, b, h => by
    rw [encodeField] at h
    obtain ⟨r, hr, h⟩ := bind_eq_ok_iff.1 h
    obtain rfl : .document r = b := Except.ok.inj h
    obtain ⟨hkeys, hdeclared, hbelow⟩ := Encodes.of_encodeMembers hr
    exact .object hkeys hdeclared hbelow
  | path, .scalarArray t, .null, b, h => by
    obtain rfl : .null = b := by simpa [encodeField] using h
    exact .null fun entity e => by cases e
  | path, .scalarArray t, .array items, b, h => by
    rw [encodeField] at h
    obtain ⟨stored, hstored, h⟩ := bind_eq_ok_iff.1 h
    obtain rfl : .array stored = b := Except.ok.inj h
    obtain ⟨hlength, hbelow⟩ := ((encodeScalars_elementwise t path).eq_ok_iff 0).1 hstored
    exact .scalarArray hlength fun i v b hv hb => by
      simpa using Encodes.scalar (hbelow i v b hv hb)
  | path, .objectArray members, .null, b, h => by
    obtain rfl : .null = b := by simpa [encodeField] using h
    exact .null fun entity e => by cases e
  | path, .objectArray members, .array items, b, h => by
    rw [encodeField] at h
    obtain ⟨stored, hstored, h⟩ := bind_eq_ok_iff.1 h
    obtain rfl : .array stored = b := Except.ok.inj h
    obtain ⟨hlength, hbelow⟩ := Encodes.of_encodeElements hstored
    exact .objectArray hlength fun i v b hv hb => by
      simpa using hbelow i v b hv hb

theorem Encodes.of_encodeMembers : ∀ {declared : Members} {path : Path}
    {d : List (String × Json)} {r : List (String × Bson)}, m.encodeMembers declared path d = .ok r →
      Fields.keys r = Fields.keys d ∧ (∀ name ∈ Fields.keys d, declared.get? name ≠ none) ∧
        ∀ name f v b, declared.get? name = some f → Fields.get? name d = some v →
          Fields.get? name r = some b → m.Encodes (path.child (.name name)) f v b
  | declared, path, [], r, h => by
    obtain rfl : [] = r := by simpa [encodeMembers] using h
    refine ⟨rfl, fun name hmem => ?_, fun name f v b _ hv => ?_⟩
    · cases hmem
    · cases hv
  | declared, path, (key, value) :: rest, r, h => by
    obtain ⟨field, stored, more, hkey, hstored, hmore, rfl⟩ := encodeMembers_cons_eq_ok_iff.1 h
    have hfirst := Encodes.of_encodeField hstored
    obtain ⟨hkeys, hdeclared, hbelow⟩ := Encodes.of_encodeMembers hmore
    refine ⟨congrArg (key :: ·) hkeys, fun name hmem => ?_, fun name f v b hf hv hb => ?_⟩
    · rcases List.mem_cons.1 hmem with rfl | hmem
      · rw [hkey]
        exact Option.some_ne_none _
      · exact hdeclared name hmem
    · by_cases hname : key = name
      · subst hname
        rw [Fields.get?_cons_self] at hv hb
        obtain rfl : value = v := Option.some.inj hv
        obtain rfl : stored = b := Option.some.inj hb
        obtain rfl : field = f := Option.some.inj (hkey.symm.trans hf)
        exact hfirst
      · rw [Fields.get?_cons_of_ne hname] at hv hb
        exact hbelow name f v b hf hv hb

theorem Encodes.of_encodeElements : ∀ {declared : Members} {path : Path} {start : Nat}
    {items : List Json} {stored : List Bson},
      m.encodeElements declared path start items = .ok stored →
      stored.length = items.length ∧ ∀ (i : Nat) v b, items[i]? = some v → stored[i]? = some b →
        m.Encodes (path.child (.index (start + i))) (.object declared) v b
  | declared, path, start, [], stored, h => by
    obtain rfl : [] = stored := by simpa [encodeElements] using h
    exact ⟨rfl, fun i v b hv => by cases hv⟩
  | declared, path, start, item :: rest, stored, h => by
    rw [encodeElements] at h
    obtain ⟨first, hfirst, h⟩ := bind_eq_ok_iff.1 h
    obtain ⟨more, hmore, h⟩ := bind_eq_ok_iff.1 h
    obtain rfl : first :: more = stored := Except.ok.inj h
    rw [encodeElement_eq] at hfirst
    have hfirst := Encodes.of_encodeField hfirst
    obtain ⟨hlength, hbelow⟩ := Encodes.of_encodeElements hmore
    refine ⟨congrArg Nat.succ hlength, fun i v b hv hb => ?_⟩
    cases i with
    | zero =>
      obtain rfl : item = v := Option.some.inj hv
      obtain rfl : first = b := Option.some.inj hb
      exact hfirst
    | succ i =>
      have hnext := hbelow i v b hv hb
      rwa [Nat.add_assoc, Nat.add_comm 1] at hnext

end

end Docstore.Mapper
