import Docstore.Proofs.Entity.Names
import Docstore.Proofs.Record.Positions
import Docstore.Proofs.Record.Saving
import Docstore.Proofs.Update.Operations
import Docstore.Proofs.Update.Placing

/-!
# Setting fields before and after encoding

An update that only sets fields can be made in the document, which is encoded afterwards, or in the
record, by the native update. Both ways lead to the same record.

* `Operation.set?` : the document after setting a field to a literal;
* `Record.setAll?` : the record after the entries of the set section of a native update;
* `Setting` : a field, a literal and its stored form;
* `Mapper.encodeAs_put` : the square for one setting;
* `Mapper.encodeAs_setAll` : the square for an update.

The document takes every value in turn, the record only the last one of each field. Both keep what
is present in its place, and no field lies inside another one that is set, since both are simple.
-/

namespace Docstore

/-- Objects as fields that are values. -/
def Json.nesting : Nesting Json where
  wrap := .object
  fields?
    | .object members => some members
    | _ => none
  fields?_wrap _ := rfl

/-- Stored documents as fields that are values. -/
def Bson.nesting : Nesting Bson where
  wrap := .document
  fields?
    | .document fields => some fields
    | _ => none
  fields?_wrap _ := rfl

/-- The names that a path consists of. -/
def Path.names? : Path → Option (List String)
  | [] => some []
  | .name key :: rest => (names? rest).map (key :: ·)
  | _ :: _ => none

theorem Path.names?_ofNames (names : List String) : (ofNames names).names? = some names := by
  induction names with
  | nil => rfl
  | cons name rest ih => exact congrArg (Option.map (name :: ·)) ih

/-! ### Performing -/

namespace Operation

/-- The operation sets a field. -/
def IsSet (o : Operation) : Prop := ∃ field source, o = .assign .set field source

/-- The document after an operation that sets a field to a literal. Parents that are missing are
made. -/
def set? (d : Json) : Operation → Option Json
  | .assign .set field (.value v) =>
    field.names?.map fun names => Json.nesting.put names v (some d)
  | _ => none

end Operation

/-- The document after operations that set fields to literals, one after another. -/
def Json.setAll? (d : Json) (operations : List Operation) : Option Json :=
  operations.foldlM (fun d o => o.set? d) d

namespace Record

/-- The entries of a section of a native update. -/
def sectionOf (operator : String) (D : Record) : Record :=
  match Fields.get? operator D with
  | some (.document entries) => entries
  | _ => []

/-- The record after the set section of a native update, whose entries are put at their dotted
paths in order. -/
def setAll? (D r : Record) : Option Record :=
  (Bson.nesting.putAll Path.dottedNames (sectionOf Assignment.set.native D)
    (some (.document r))).bind Bson.nesting.fields?

theorem sectionOf_document (operator : String) (s : Sections) :
    sectionOf operator s.document = s.entries operator := by
  have hget : Fields.get? operator s.document = (Fields.get? operator s).map Bson.document := by
    induction s with
    | nil => rfl
    | cons x rest ih =>
      obtain ⟨key, entries⟩ := x
      rw [Sections.document, List.map_cons]
      by_cases hkey : key = operator
      · subst hkey
        rw [Fields.get?_cons_self, Fields.get?_cons_self]
        rfl
      · rw [Fields.get?_cons_of_ne hkey, Fields.get?_cons_of_ne hkey]
        exact ih
  rw [sectionOf, hget, Sections.entries]
  cases Fields.get? operator s <;> rfl

end Record

/-! ### Settings -/

/-- A field outside of arrays, a literal and its stored form. -/
structure Setting where
  names : List String
  value : Json
  stored : Bson

namespace Setting

/-- The path of the field. -/
def path (x : Setting) : Path := Path.ofNames x.names

/-- The operation that sets the field to the literal. -/
def operation (x : Setting) : Operation := .assign .set x.path (.value x.value)

/-- The native entry. -/
def entry (x : Setting) : NativeEntry := ⟨Assignment.set.native, x.path.storageText, x.stored⟩

/-- The field is simple, and the literal is stored in this form there. -/
def Valid (m : Mapper) (e : Entity) (x : Setting) : Prop :=
  ∃ t, (Field.object e.members).follow? x.path = some (.scalar t) ∧
    m.encodeScalar t x.path x.value = .ok x.stored

end Setting

namespace Mapper

variable {m : Mapper} {e : Entity} {d : Json} {r : Record}

/-- An operation that sets a field and has an entry is a valid setting. -/
theorem exists_setting {o : Operation} {x : NativeEntry} (ho : o.IsSet)
    (h : m.nativeOperation e o = .ok x) :
    ∃ s : Setting, s.Valid m e ∧ o = s.operation ∧ x = s.entry := by
  obtain ⟨field, source, rfl⟩ := ho
  obtain ⟨v, t, canonical, c, rfl, hresolve, hinside, hnode, hcast, rfl⟩ :=
    exists_of_nativeAssignment h
  obtain ⟨names, rfl⟩ := Cursor.exists_ofNames hresolve hinside
  refine ⟨⟨names, v, m.identify e.root (Path.ofNames names) canonical.stored⟩, ⟨t, ?_, ?_⟩, rfl,
    rfl⟩
  · rw [Setting.path, ← Entity.resolve?_asField, hresolve, Option.map_some, hnode]
    rfl
  · exact encodeScalar_eq_ok_iff.2 ⟨canonical, hcast, rfl⟩

/-- The entries of operations that set fields are those of valid settings. -/
theorem exists_settings {operations : List Operation} {entries : List NativeEntry}
    (hset : ∀ o ∈ operations, o.IsSet)
    (h : List.Forall₂ (fun o x => m.nativeOperation e o = .ok x) operations entries) :
    ∃ settings : List Setting, (∀ x ∈ settings, x.Valid m e) ∧
      operations = settings.map Setting.operation ∧ entries = settings.map Setting.entry := by
  induction h with
  | nil => exact ⟨[], nofun, rfl, rfl⟩
  | cons hx _ ih =>
    obtain ⟨ho, hrest⟩ := List.forall_mem_cons.1 hset
    obtain ⟨x, hvalid, rfl, rfl⟩ := exists_setting ho hx
    obtain ⟨settings, hall, rfl, rfl⟩ := ih hrest
    exact ⟨x :: settings, List.forall_mem_cons.2 ⟨hvalid, hall⟩, rfl, rfl⟩

/-! ### One setting -/

theorem encodeMembers_insert {declared : Members} {path : Path} {members : List (String × Json)}
    {r : List (String × Bson)} {name : String} {f : Field} {v : Json} {b : Bson}
    (h : m.encodeMembers declared path members = .ok r) (hf : declared.get? name = some f)
    (hb : m.encodeField (path.child (.name name)) f v = .ok b) :
    m.encodeMembers declared path (Fields.insert name v members) =
      .ok (Fields.insert name b r) := by
  induction members generalizing r with
  | nil =>
    rw [encodeMembers_nil] at h
    obtain rfl := Except.ok.inj h
    rw [Fields.insert, encodeMembers_cons hf, hb, encodeMembers_nil]
    rfl
  | cons member rest ih =>
    obtain ⟨key, old⟩ := member
    obtain ⟨g, stored, more, hkey, hstored, hmore, rfl⟩ := encodeMembers_cons_eq_ok_iff.1 h
    rw [Fields.insert, Fields.insert]
    by_cases hname : key = name
    · subst hname
      rw [if_pos rfl, if_pos rfl, encodeMembers_cons hf, hb, hmore]
      rfl
    · rw [if_neg hname, if_neg hname, encodeMembers_cons hkey, hstored, ih hmore]
      rfl

/-- The stored form of a value, or nothing when the value is missing. -/
def EncodesTo (m : Mapper) (path : Path) (f : Field) : Option Json → Option Bson → Prop
  | none, none => True
  | some d, some b => m.encodeField path f d = .ok b
  | _, _ => False

section

variable {path : Path} {f : Field} {declared : Members} {name : String} {rest : List String}
  {old : Option Json} {stored : Option Bson}

theorem encodesTo_get? {members : List (String × Json)} {r : List (String × Bson)}
    (h : m.encodeMembers declared path members = .ok r) (hf : declared.get? name = some f) :
    m.EncodesTo (path.child (.name name)) f (Fields.get? name members) (Fields.get? name r) := by
  cases hget : Fields.get? name members with
  | some w =>
    obtain ⟨g, b, hg, hb, hr⟩ := get?_of_encodeMembers h hget
    obtain rfl : g = f := Option.some.inj (hg.symm.trans hf)
    rw [hr]
    exact hb
  | none =>
    have hkeys := (Encodes.of_encodeMembers h).1
    rw [(Fields.get?_eq_none_iff_of_keys hkeys name).2 hget]
    trivial

/-- Where a member can be put, there are fields, or there will be. -/
theorem EncodesTo.fieldsOf (h : m.EncodesTo path (.object declared) old stored)
    (hadmits : Json.nesting.Admits (name :: rest) old) :
    m.encodeMembers declared path (Json.nesting.fieldsOf old) =
        .ok (Bson.nesting.fieldsOf stored) ∧
      Json.nesting.Admits rest (Fields.get? name (Json.nesting.fieldsOf old)) := by
  cases old with
  | none =>
    cases stored with
    | none =>
      exact ⟨encodeMembers_nil declared path, Nesting.admits_none rest⟩
    | some b => cases h
  | some d =>
    obtain ⟨members, hmembers, hrest⟩ := hadmits d rfl
    cases d with
    | object members' =>
      cases stored with
      | none => cases h
      | some b =>
        have h : m.encodeField path (.object declared) (.object members') = .ok b := h
        rw [encodeField] at h
        obtain ⟨r, hr, h⟩ := bind_eq_ok_iff.1 h
        obtain rfl := pure_eq_ok_iff.1 h
        obtain rfl : members' = members := Option.some.inj hmembers
        exact ⟨hr, hrest⟩
    | _ => cases hmembers

/-- Encoding a value with another one put under names is putting its stored form there. -/
theorem EncodesTo.put {names : List String} {t : ScalarType} {v : Json} {c : Bson}
    (h : m.EncodesTo path f old stored)
    (hf : f.follow? (Path.ofNames names) = some (.scalar t))
    (hv : m.encodeScalar t (path ++ Path.ofNames names) v = .ok c)
    (hadmits : Json.nesting.Admits names old) :
    m.encodeField path f (Json.nesting.put names v old) =
      .ok (Bson.nesting.put names c stored) := by
  induction names generalizing path f old stored with
  | nil =>
    obtain rfl : f = .scalar t := Option.some.inj hf
    rw [Path.ofNames, List.map_nil, List.append_nil] at hv
    rw [encodeField]
    exact hv
  | cons name rest ih =>
    obtain ⟨g, hstep, hg⟩ := Option.bind_eq_some_iff.1 hf
    have hpath : path ++ Path.ofNames (name :: rest) =
        path.child (.name name) ++ Path.ofNames rest := by
      rw [Path.child, List.append_assoc]
      rfl
    rw [hpath] at hv
    cases f with
    | object declared =>
      obtain ⟨hmembers, hrest⟩ := h.fieldsOf hadmits
      have hbelow := ih (encodesTo_get? hmembers hstep) hg hv hrest
      have hinsert := encodeMembers_insert hmembers hstep hbelow
      rw [Nesting.put, Nesting.put]
      dsimp only [Json.nesting, Bson.nesting] at hinsert ⊢
      rw [encodeField, hinsert]
      rfl
    | _ => cases hstep

end

theorem Setting.names_ne_nil {x : Setting} (h : x.Valid m e) : x.names ≠ [] := by
  obtain ⟨t, hf, -⟩ := h
  intro hnames
  rw [Setting.path, hnames] at hf
  cases hf

/-- The square for one setting. -/
theorem encodeAs_put {x : Setting} (hx : x.Valid m e) (hd : m.encodeAs e d = .ok r)
    (hadmits : Json.nesting.Admits x.names (some d)) :
    ∃ r', Bson.nesting.put x.names x.stored (some (.document r)) = .document r' ∧
      m.encodeAs e (Json.nesting.put x.names x.value (some d)) = .ok r' := by
  obtain ⟨t, hf, hv⟩ := hx
  cases d with
  | object members =>
    have hencodes : m.EncodesTo .root (.object e.members) (some (.object members))
        (some (.document r)) := by
      show m.encodeField _ _ _ = _
      rw [encodeField_root, hd]
      rfl
    have hput := hencodes.put hf hv hadmits
    obtain ⟨name, rest, hnames⟩ : ∃ name rest, x.names = name :: rest :=
      List.exists_cons_of_ne_nil (Setting.names_ne_nil ⟨t, hf, hv⟩)
    rw [hnames] at hput ⊢
    have hput : m.encodeField .root (.object e.members) (.object _) = .ok (.document _) := hput
    rw [encodeField_root] at hput
    obtain ⟨r', hr', heq⟩ := map_eq_ok_iff.1 hput
    exact ⟨r', heq.symm, hr'⟩
  | _ => cases hd

/-! ### Settings in a row -/

/-- Neither of two simple fields lies inside the other. -/
theorem eq_or_diverge {f : Field} {names others : List String} {t t' : ScalarType}
    (h : f.follow? (Path.ofNames names) = some (.scalar t))
    (h' : f.follow? (Path.ofNames others) = some (.scalar t')) :
    names = others ∨ Diverge names others := by
  induction names generalizing f others with
  | nil =>
    obtain rfl : f = .scalar t := Option.some.inj h
    cases others with
    | nil => exact .inl rfl
    | cons other rest => cases h'
  | cons name rest ih =>
    obtain ⟨g, hstep, hg⟩ := Option.bind_eq_some_iff.1 h
    cases others with
    | nil =>
      obtain rfl : f = .scalar t' := Option.some.inj h'
      cases hstep
    | cons other rest' =>
      obtain ⟨g', hstep', hg'⟩ := Option.bind_eq_some_iff.1 h'
      by_cases hname : name = other
      · subst hname
        obtain rfl : g = g' := Option.some.inj (hstep.symm.trans hstep')
        rcases ih hg hg' with rfl | hd
        · exact .inl rfl
        · exact .inr (diverge_cons_iff.2 hd)
      · exact .inr ⟨fun hp => hname (List.cons_prefix_cons.1 hp).1,
          fun hp => hname (List.cons_prefix_cons.1 hp).1.symm⟩

theorem encodeAs_foldl_put {settings : List Setting} (hall : ∀ x ∈ settings, x.Valid m e)
    (hd : m.encodeAs e d = .ok r)
    (hadmits : ∀ x ∈ settings, Json.nesting.Admits x.names (some d)) :
    ∃ r', settings.foldl (fun b x => Bson.nesting.put x.names x.stored (some b)) (.document r) =
        .document r' ∧
      m.encodeAs e (settings.foldl (fun d x => Json.nesting.put x.names x.value (some d)) d) =
        .ok r' := by
  induction settings generalizing d r with
  | nil => exact ⟨r, rfl, hd⟩
  | cons x rest ih =>
    obtain ⟨hx, hrest⟩ := List.forall_mem_cons.1 hall
    obtain ⟨r₁, hr₁, hd₁⟩ := encodeAs_put hx hd (hadmits x List.mem_cons_self)
    rw [List.foldl_cons, List.foldl_cons, hr₁]
    refine ih hrest hd₁ fun y hy => ?_
    obtain ⟨t, hfx, -⟩ := hx
    obtain ⟨t', hfy, -⟩ := hrest y hy
    exact (hadmits y (List.mem_cons_of_mem _ hy)).put (eq_or_diverge hfy hfx) x.value

/-! ### Updates -/

/-- Where nothing but objects stands above a place, a value can be put there. -/
theorem admits_of_above {names : List String} (h : ∀ above, above <+: Path.ofNames names →
    above ≠ Path.ofNames names → ∀ v, d.follow? above = some v → ∃ members, v = .object members) :
    Json.nesting.Admits names (some d) := by
  induction names generalizing d with
  | nil => trivial
  | cons name rest ih =>
    rintro _ ⟨⟩
    obtain ⟨members, rfl⟩ := h [] List.nil_prefix (by simp [Path.ofNames]) d rfl
    refine ⟨members, rfl, ?_⟩
    cases hget : Fields.get? name members with
    | none => exact Nesting.admits_none rest
    | some w =>
      refine ih fun above habove hne v hv => h (.name name :: above) ?_ ?_ v ?_
      · exact List.cons_prefix_cons.2 ⟨rfl, habove⟩
      · exact fun heq => hne (List.cons.inj heq).2
      · exact Option.bind_eq_some_iff.2 ⟨w, hget, hv⟩

theorem setAll?_operations (settings : List Setting) (d : Json) :
    d.setAll? (settings.map Setting.operation) =
      some (settings.foldl (fun d x => Json.nesting.put x.names x.value (some d)) d) := by
  induction settings generalizing d with
  | nil => rfl
  | cons x rest ih =>
    have hset : x.operation.set? d = some (Json.nesting.put x.names x.value (some d)) := by
      rw [Setting.operation, Operation.set?, Setting.path, Path.names?_ofNames]
      rfl
    rw [List.map_cons, Json.setAll?, List.foldlM_cons, hset]
    exact ih _

/-- The set section of settings has the last value of each key. -/
theorem entries_settings (settings : List Setting) :
    (Sections.ofEntries (settings.map Setting.entry)).entries Assignment.set.native =
      Fields.ofList (settings.map fun x => (x.path.storageText, x.stored)) := by
  have hset : (settings.map Setting.entry).filter
      (fun x => x.operator = Assignment.set.native) = settings.map Setting.entry := by
    refine List.filter_eq_self.2 fun x hx => ?_
    obtain ⟨y, -, rfl⟩ := List.mem_map.1 hx
    rfl
  rw [Sections.entries_ofEntries, hset, List.map_map]
  rfl

theorem dottedNames_storageText {x : Setting} (he : e.DotFree) (hx : x.Valid m e) :
    Path.dottedNames x.path.storageText = x.names := by
  have hne := Setting.names_ne_nil hx
  obtain ⟨t, hf, -⟩ := hx
  exact Path.dottedNames_storageText hne (he.not_mem_of_follow? hf)

/-- The record takes the last value of each field as it takes all of them in turn. -/
theorem putAll_settings {settings : List Setting} (he : e.DotFree)
    (hall : ∀ x ∈ settings, x.Valid m e) (b : Bson) :
    Bson.nesting.putAll Path.dottedNames
        (Fields.ofList (settings.map fun x => (x.path.storageText, x.stored))) (some b) =
      some (settings.foldl (fun b x => Bson.nesting.put x.names x.stored (some b)) b) := by
  have hkey : ∀ a ∈ Fields.keys (settings.map fun x => (x.path.storageText, x.stored)),
      ∃ x ∈ settings, x.path.storageText = a := by
    intro a ha
    obtain ⟨_, hmem, rfl⟩ := List.mem_map.1 ha
    obtain ⟨x, hx, rfl⟩ := List.mem_map.1 hmem
    exact ⟨x, hx, rfl⟩
  rw [Nesting.putAll_ofList]
  · clear hkey
    induction settings generalizing b with
    | nil => rfl
    | cons x rest ih =>
      obtain ⟨hx, hrest⟩ := List.forall_mem_cons.1 hall
      rw [List.map_cons, Nesting.putAll_cons, dottedNames_storageText he hx, ih hrest]
      rfl
  · intro a ha a' ha' hne
    obtain ⟨x, hx, rfl⟩ := hkey a ha
    obtain ⟨y, hy, rfl⟩ := hkey a' ha'
    rw [dottedNames_storageText he (hall x hx), dottedNames_storageText he (hall y hy)]
    obtain ⟨t, hfx, -⟩ := hall x hx
    obtain ⟨t', hfy, -⟩ := hall y hy
    refine (eq_or_diverge hfx hfy).resolve_left fun hnames => hne ?_
    rw [Setting.path, Setting.path, hnames]

/-- Making an update that only sets fields in the document and encoding it afterwards gives the
same record, the order of keys included, as encoding the document and making the native update,
when nothing but objects stands above the fields. -/
theorem encodeAs_setAll {u : Update} {D : Record} (he : e.DotFree) (hd : m.encodeAs e d = .ok r)
    (hset : ∀ o ∈ u.operations, o.IsSet) (hD : m.nativeUpdate e u = .ok (.native D))
    (habove : ∀ field source, .assign .set field source ∈ u.operations →
      ∀ above, above <+: field → above ≠ field →
        ∀ v, d.follow? above = some v → ∃ members, v = .object members) :
    ∃ d' r', d.setAll? u.operations = some d' ∧ Record.setAll? D r = some r' ∧
      m.encodeAs e d' = .ok r' := by
  obtain ⟨entries, hentries, rfl⟩ := exists_entries_of_nativeUpdate hD
  obtain ⟨settings, hall, hoperations, rfl⟩ := exists_settings hset hentries
  rw [hoperations] at habove ⊢
  have hadmits : ∀ x ∈ settings, Json.nesting.Admits x.names (some d) := fun x hx =>
    admits_of_above (habove x.path _ (List.mem_map_of_mem hx))
  obtain ⟨r', hr', hd'⟩ := encodeAs_foldl_put hall hd hadmits
  refine ⟨_, r', setAll?_operations settings d, ?_, hd'⟩
  rw [Record.setAll?, Record.sectionOf_document, entries_settings, putAll_settings he hall, hr']
  rfl

/-- A name that is set twice under a lead that is missing first. -/
theorem encodeAs_setAll_lead :
    let m : Mapper := { entities := [] }
    let e : Entity := ⟨"table", [("title", .scalar .string),
      ("lead", .object [("name", .scalar .string), ("age", .scalar .integer)])]⟩
    let title : Path := [.name "title"]
    let name : Path := [.name "lead", .name "name"]
    let u : Update := .sequence [.assign .set [(name, .value (.string "Ann")),
      (title, .value (.string "second"))], .assign .set [(name, .value (.string "Bob"))]]
    let d : Json := .object [("title", .string "first")]
    let D : Record := [("$set", .document [("lead.name", .string "Bob"),
      ("title", .string "second")])]
    e.DotFree ∧ m.nativeUpdate e u = .ok (.native D) ∧ ∃ d' r', d.setAll? u.operations = some d' ∧
      Record.setAll? D [("title", .string "first")] = some r' ∧ m.encodeAs e d' = .ok r' := by
  intro m e title name u d D
  have he : e.DotFree := by
    simp [e, Entity.DotFree, Field.DotFree, Field.MembersDotFree]
  have hD : m.nativeUpdate e u = .ok (.native D) := rfl
  have hset : ∀ o ∈ u.operations, o.IsSet := by
    simp [u, Update.operations, Update.operationsOf, Operation.IsSet]
  have hd : m.encodeAs e d = .ok [("title", .string "first")] := rfl
  refine ⟨he, hD, encodeAs_setAll he hd hset hD fun field source hmem above hprefix hne v hv => ?_⟩
  have hfield : field = name ∨ field = title := by
    simp only [u, Update.operations, Update.operationsOf, List.map_cons, List.map_nil,
      List.cons_append, List.nil_append, List.mem_cons, Operation.assign.injEq,
      List.not_mem_nil, or_false] at hmem
    rcases hmem with h | h | h
    · exact .inl h.2.1
    · exact .inr h.2.1
    · exact .inl h.2.1
  rcases above with _ | ⟨s, _ | ⟨s', rest⟩⟩
  · exact ⟨_, (Option.some.inj hv).symm⟩
  · rcases hfield with rfl | rfl
    · obtain ⟨rfl, -⟩ := List.cons_prefix_cons.1 hprefix
      cases hv
    · obtain ⟨rfl, -⟩ := List.cons_prefix_cons.1 hprefix
      exact absurd rfl hne
  · rcases hfield with rfl | rfl
    · simp only [name, List.cons_prefix_cons, List.prefix_nil] at hprefix
      obtain ⟨rfl, rfl, rfl⟩ := hprefix
      exact absurd rfl hne
    · simp [title] at hprefix

end Mapper

end Docstore
