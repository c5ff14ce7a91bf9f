import Docstore.Proofs.Entity.Names
import Docstore.Proofs.Identifier
import Docstore.Proofs.Scalar.RoundTrip
import Docstore.Proofs.Update.Operations

/-!
# Native updates that the store can perform

The store refuses a native update with a key that is no simple field, with an addition of anything
but a number, or with one key in two sections. A native update may be of each of these kinds: a
removal does not look at the type of its field, an addition does not look whether the type has
numbers, and sections are filled one by one.

* `Record.HasEntry` : an entry of a native update;
* `Executable` : the store can perform a native update;
* `Mapper.Admissible` : what has to hold of the operations of an update;
* `Mapper.executable_nativeUpdate_iff` : native updates have keys of fields outside of arrays, and
  they are executable exactly when their updates are admissible;
* `Mapper.not_executable_nativeUpdate` : three updates that are not.

A key stands for one field only, since names have no dots. So sections that share a key come from
operations on one field, and under a key of the additions stands the last one to that field.
-/

namespace Docstore

/-- A value that the store can add: a 64-bit integer or a double. -/
def Bson.IsAddend : Bson → Prop
  | .int64 _ => True
  | .double _ => True
  | _ => False

/-- A native update has an entry with this operator, key and operand. -/
def Record.HasEntry (D : Record) (operator key : String) (operand : Bson) : Prop :=
  ∃ entries : Record, (operator, .document entries) ∈ D ∧ (key, operand) ∈ entries

/-! ### Executable updates -/

namespace Entity

/-- A path leads to a field, or to the document itself, that no array encloses. -/
def OutsideArrays (e : Entity) (p : Path) : Prop :=
  ∃ c, e.resolve? p = some c ∧ c.insideArray = false

/-- A path leads to a simple field of a type. -/
def HasScalar (e : Entity) (p : Path) (t : ScalarType) : Prop :=
  ∃ c, e.resolve? p = some c ∧ c.node = .field (.scalar t)

end Entity

/-- The store can perform a native update. -/
structure Executable (e : Entity) (D : Record) : Prop where
  /-- Every key is that of a simple field outside of arrays. -/
  simple : ∀ operator key operand, D.HasEntry operator key operand →
    ∃ p t, e.OutsideArrays p ∧ e.HasScalar p t ∧ p.storageText = key
  addends : ∀ key operand, D.HasEntry Assignment.add.native key operand → operand.IsAddend
  /-- No key occurs in two sections. -/
  apart : ∀ operator operator' key operand operand', D.HasEntry operator key operand →
    D.HasEntry operator' key operand' → operator = operator'

/-! ### Admissible operations -/

/-- A literal that the type takes is stored as a number. A free-form value may be written as
one. -/
def ScalarType.Adds : ScalarType → Json → Prop
  | .integer, v => v ≠ .null
  | .double, v => v ≠ .null
  | .any, v => ∃ b, Bson.ofJson v = .ok b ∧ b.IsAddend
  | _, _ => False

namespace Operation

/-- The field that an operation changes. -/
def field : Operation → Path
  | .assign _ field _ => field
  | .remove field => field
  | .elements array => array

/-- The native operator of an operation. -/
def operator? : Operation → Option String
  | .assign op _ _ => some op.native
  | .remove _ => some removalOperator
  | .elements _ => none

/-- The last addition to a field. -/
def lastAddition? (field : Path) (operations : List Operation) : Option Operation :=
  (operations.filter fun o => o.operator? = some Assignment.add.native ∧ o.field = field).getLast?

end Operation

namespace Mapper

/-- A literal can be added to a field: it is stored as a number there, and the field is not the
identifier, which is stored as text. -/
def Addable (m : Mapper) (e : Entity) (field : Path) (v : Json) : Prop :=
  m.isIdPath field = false ∧ ∃ t, e.HasScalar field t ∧ t.Adds v

/-- What has to hold of the operations of an update for the store to perform its native form. -/
structure Admissible (m : Mapper) (e : Entity) (operations : List Operation) : Prop where
  removed : ∀ field, .remove field ∈ operations → ∃ t, e.HasScalar field t
  /-- Earlier additions to a field are lost and do not count. -/
  added : ∀ field v,
    Operation.lastAddition? field operations = some (.assign .add field (.value v)) →
      m.Addable e field v
  apart : ∀ o ∈ operations, ∀ o' ∈ operations, o.field = o'.field → o.operator? = o'.operator?

end Mapper

/-! ### Operands -/

theorem Bson.not_isAddend_asIdentifier (b : Bson) : ¬ b.asIdentifier.IsAddend := by
  rcases b.asIdentifier_form with h | ⟨id, h⟩ | ⟨text, h⟩ <;> simp [h, IsAddend]

theorem ScalarType.isAddend_stored_iff {t : ScalarType} {v : Json} {c : Canonical}
    (h : t.cast v = .ok c) : c.stored.IsAddend ↔ t.Adds v := by
  by_cases hv : v = .null
  · subst hv
    obtain rfl : .null = c := Except.ok.inj ((cast_null t).symm.trans h)
    refine iff_of_false id ?_
    cases t with
    | integer => exact fun hne => hne rfl
    | double => exact fun hne => hne rfl
    | any =>
      rintro ⟨b, hb, hadd⟩
      obtain rfl : .null = b := Except.ok.inj hb
      exact hadd
    | _ => exact id
  cases t with
  | any =>
    obtain ⟨stored, hstored, rfl⟩ := (cast_any_eq_ok_iff hv).1 h
    constructor
    · exact fun hadd => ⟨stored, hstored, hadd⟩
    · rintro ⟨b, hb, hadd⟩
      obtain rfl := Except.ok.inj (hstored.symm.trans hb)
      exact hadd
  | _ =>
    rw [cast_eq_ok_iff (by simp) hv] at h
    obtain ⟨x, -, rfl⟩ := Option.map_eq_some_iff.1 h
    simp [Adds, Canonical.stored, Bson.IsAddend, hv]

variable {m : Mapper} {e : Entity}

/-- What is added is a number exactly when the literal can be added to the field. -/
theorem Mapper.isAddend_operand_iff {field : Path} {v : Json} {x : NativeEntry}
    (h : m.nativeAssignment e .add field (.value v) = .ok x) :
    x.operand.IsAddend ↔ m.Addable e field v := by
  obtain ⟨_, t, canonical, c, hsource, hresolve, -, hnode, hcast, rfl⟩ :=
    exists_of_nativeAssignment h
  obtain rfl := Source.value.inj hsource
  have hscalar : ∀ t', e.HasScalar field t' → t' = t := by
    rintro t' ⟨c', hc', hnode'⟩
    obtain rfl := Option.some.inj (hresolve.symm.trans hc')
    rw [hnode] at hnode'
    cases hnode'
    rfl
  have hroot : e.root.isRoot = true := rfl
  rw [identify, hroot, Bool.true_and, Addable]
  cases hid : m.isIdPath field with
  | true =>
    rw [if_pos rfl]
    exact iff_of_false (Bson.not_isAddend_asIdentifier _) fun hadd => Bool.noConfusion hadd.1
  | false =>
    rw [if_neg Bool.false_ne_true, ScalarType.isAddend_stored_iff hcast]
    constructor
    · exact fun hadd => ⟨rfl, t, ⟨c, hresolve, hnode⟩, hadd⟩
    · rintro ⟨-, t', ht', hadd⟩
      obtain rfl := hscalar t' ht'
      exact hadd

/-! ### Keys -/

/-- A field outside of arrays has a path of names, which can be read off its key. The document
itself has the key of an empty name, which no field has. -/
theorem Entity.OutsideArrays.exists_names {p : Path} (hp : e.OutsideArrays p) (he : e.DotFree)
    (hempty : "" ∉ Fields.keys e.members) :
    ∃ names, p = Path.ofNames names ∧ names ≠ [""] ∧
      Path.dottedNames p.storageText = if names = [] then [""] else names := by
  obtain ⟨c, hc, hinside⟩ := hp
  obtain ⟨names, rfl⟩ := Cursor.exists_ofNames hc hinside
  have hfollow : (Field.object e.members).follow? (Path.ofNames names) = some c.node.asField := by
    rw [← e.resolve?_asField, hc]
    rfl
  refine ⟨names, rfl, ?_, ?_⟩
  · rintro rfl
    obtain ⟨below, hbelow, -⟩ := Option.bind_eq_some_iff.1 hfollow
    have hnone : Fields.get? "" e.members = none := Fields.get?_eq_none_iff.2 hempty
    cases hnone.symm.trans hbelow
  · split
    · subst names
      decide
    · exact Path.dottedNames_storageText ‹_› (he.not_mem_of_follow? hfollow)

/-- A key stands for one field outside of arrays. -/
theorem Entity.OutsideArrays.eq_of_storageText {p p' : Path} (hp : e.OutsideArrays p)
    (hp' : e.OutsideArrays p') (he : e.DotFree) (hempty : "" ∉ Fields.keys e.members)
    (h : p.storageText = p'.storageText) : p = p' := by
  obtain ⟨names, rfl, hne, hnames⟩ := hp.exists_names he hempty
  obtain ⟨names', rfl, hne', hnames'⟩ := hp'.exists_names he hempty
  rw [h, hnames'] at hnames
  by_cases hnil : names = []
  · by_cases hnil' : names' = []
    · rw [hnil, hnil']
    · rw [if_pos hnil, if_neg hnil'] at hnames
      exact absurd hnames hne'
  · by_cases hnil' : names' = []
    · rw [if_neg hnil, if_pos hnil'] at hnames
      exact absurd hnames.symm hne
    · rw [if_neg hnil, if_neg hnil'] at hnames
      rw [hnames]

/-! ### Entries -/

section

variable {entries : List NativeEntry} {operator key : String} {operand : Bson}

/-- An entry of the sections is the last one for its key. -/
theorem hasEntry_ofEntries_iff :
    Record.HasEntry (Sections.ofEntries entries).document operator key operand ↔
      (entries.filter fun x => x.operator = operator ∧ x.key = key).getLast?.map (·.operand) =
        some operand := by
  have hformed := Sections.wellFormed_ofEntries entries
  rw [← Sections.get?_entries_ofEntries]
  constructor
  · rintro ⟨present, hsection, hmem⟩
    rw [Sections.entries_of_mem hformed (Sections.mem_document hsection)]
    exact (Fields.get?_eq_some_iff_mem (hformed.keys _ (Sections.mem_document hsection))).2 hmem
  · exact Sections.exists_of_get?_entries

theorem exists_mem_of_hasEntry
    (h : Record.HasEntry (Sections.ofEntries entries).document operator key operand) :
    ∃ x ∈ entries, x.operator = operator ∧ x.key = key := by
  obtain ⟨x, hx, -⟩ := Option.map_eq_some_iff.1 (hasEntry_ofEntries_iff.1 h)
  obtain ⟨hmem, heq⟩ := List.mem_filter.1 (List.mem_of_getLast? hx)
  exact ⟨x, hmem, by simpa using heq⟩

theorem exists_hasEntry_of_mem {x : NativeEntry} (hx : x ∈ entries) :
    ∃ operand, Record.HasEntry (Sections.ofEntries entries).document x.operator x.key operand := by
  have hmem : x ∈ entries.filter fun y => y.operator = x.operator ∧ y.key = x.key :=
    List.mem_filter.2 ⟨hx, by simp⟩
  cases hlast : (entries.filter fun y => y.operator = x.operator ∧ y.key = x.key).getLast? with
  | none =>
    rw [List.getLast?_eq_none_iff] at hlast
    rw [hlast] at hmem
    cases hmem
  | some y => exact ⟨y.operand, hasEntry_ofEntries_iff.2 (by rw [hlast]; rfl)⟩

end

namespace Mapper

/-- The entry of an operation has its operator, and the key of its field, which lies outside of
arrays. -/
theorem nativeOperation_spec {o : Operation} {x : NativeEntry} (h : m.nativeOperation e o = .ok x) :
    o.operator? = some x.operator ∧ x.key = o.field.storageText ∧ e.OutsideArrays o.field := by
  cases o with
  | assign op field source =>
    obtain ⟨_, _, _, c, -, hc, hinside, -, -, rfl⟩ := exists_of_nativeAssignment h
    exact ⟨rfl, rfl, c, hc, hinside⟩
  | remove field =>
    obtain ⟨c, hc, hinside, rfl⟩ := exists_of_nativeRemoval h
    exact ⟨rfl, rfl, c, hc, hinside⟩
  | elements array => cases h

section

variable {operations : List Operation} {entries : List NativeEntry}

theorem map_nativeOperation
    (h : List.Forall₂ (fun o x => m.nativeOperation e o = .ok x) operations entries) :
    operations.map (m.nativeOperation e) = entries.map .ok := by
  rwa [← List.forall₂_eq_eq_eq, List.forall₂_map_left_iff, List.forall₂_map_right_iff]

theorem exists_entry_of_mem
    (h : List.Forall₂ (fun o x => m.nativeOperation e o = .ok x) operations entries)
    {o : Operation} (ho : o ∈ operations) : ∃ x ∈ entries, m.nativeOperation e o = .ok x := by
  have hmem : m.nativeOperation e o ∈ entries.map .ok := by
    rw [← map_nativeOperation h]
    exact List.mem_map_of_mem ho
  obtain ⟨x, hx, heq⟩ := List.mem_map.1 hmem
  exact ⟨x, hx, heq.symm⟩

theorem exists_operation_of_mem
    (h : List.Forall₂ (fun o x => m.nativeOperation e o = .ok x) operations entries)
    {x : NativeEntry} (hx : x ∈ entries) : ∃ o ∈ operations, m.nativeOperation e o = .ok x := by
  have hmem : Except.ok x ∈ operations.map (m.nativeOperation e) := by
    rw [map_nativeOperation h]
    exact List.mem_map_of_mem hx
  exact List.mem_map.1 hmem

/-- The last addition to a field has the last entry for its key. -/
theorem getLast?_additions (he : e.DotFree) (hempty : "" ∉ Fields.keys e.members)
    (h : List.Forall₂ (fun o x => m.nativeOperation e o = .ok x) operations entries)
    {field : Path} (hfield : e.OutsideArrays field) :
    (Operation.lastAddition? field operations).map (m.nativeOperation e) =
      (entries.filter fun x => x.operator = Assignment.add.native ∧
        x.key = field.storageText).getLast?.map .ok := by
  have hsame : ∀ o x, m.nativeOperation e o = .ok x →
      ((o.operator? = some Assignment.add.native ∧ o.field = field) ↔
        (x.operator = Assignment.add.native ∧ x.key = field.storageText)) := by
    intro o x hx
    obtain ⟨hoperator, hkey, houtside⟩ := nativeOperation_spec hx
    have hfield : o.field = field ↔ x.key = field.storageText := by
      rw [hkey]
      exact ⟨congrArg _, houtside.eq_of_storageText hfield he hempty⟩
    rw [hoperator, Option.some.injEq, hfield]
  have hfilter := List.rel_filter (R := fun o x => m.nativeOperation e o = .ok x)
    (p := fun o => o.operator? = some Assignment.add.native ∧ o.field = field)
    (q := fun x => x.operator = Assignment.add.native ∧ x.key = field.storageText)
    (fun o x hx => by simpa using hsame o x hx) h
  rw [Operation.lastAddition?, ← List.getLast?_map, ← List.getLast?_map,
    map_nativeOperation hfilter]

/-- Under the key of a field stands the operand of the last addition to it. -/
theorem hasEntry_add_iff (he : e.DotFree) (hempty : "" ∉ Fields.keys e.members)
    (h : List.Forall₂ (fun o x => m.nativeOperation e o = .ok x) operations entries)
    {field : Path} (hfield : e.OutsideArrays field) {operand : Bson} :
    Record.HasEntry (Sections.ofEntries entries).document Assignment.add.native field.storageText
        operand ↔
      ∃ v x, Operation.lastAddition? field operations = some (.assign .add field (.value v)) ∧
        m.nativeAssignment e .add field (.value v) = .ok x ∧ x.operand = operand := by
  have hlasts := getLast?_additions he hempty h hfield
  rw [hasEntry_ofEntries_iff]
  constructor
  · intro hlast
    obtain ⟨x, hx, rfl⟩ := Option.map_eq_some_iff.1 hlast
    rw [hx] at hlasts
    obtain ⟨o, ho, hox⟩ := Option.map_eq_some_iff.1 hlasts
    have hadds := (List.mem_filter.1 (List.mem_of_getLast? ho)).2
    obtain ⟨hoperator, hsame⟩ := of_decide_eq_true hadds
    cases o with
    | assign op p source =>
      obtain rfl : p = field := hsame
      obtain ⟨v, _, _, _, rfl, -⟩ := exists_of_nativeAssignment hox
      cases op with
      | set => simp [Operation.operator?, Assignment.native] at hoperator
      | add => exact ⟨v, x, ho, hox, rfl⟩
    | remove p => simp [Operation.operator?, removalOperator, Assignment.native] at hoperator
    | elements array => cases hoperator
  · rintro ⟨v, x, hlast, hx, rfl⟩
    rw [hlast, Option.map_some, nativeOperation, hx] at hlasts
    obtain ⟨y, hy, hxy⟩ := Option.map_eq_some_iff.1 hlasts.symm
    obtain rfl := Except.ok.inj hxy
    rw [hy]
    rfl

/-- Every key is that of a field outside of arrays, and of a simple one unless the field is
removed. -/
theorem exists_operation_of_hasEntry
    (h : List.Forall₂ (fun o x => m.nativeOperation e o = .ok x) operations entries)
    {operator key : String} {operand : Bson}
    (hentry : Record.HasEntry (Sections.ofEntries entries).document operator key operand) :
    ∃ o ∈ operations, o.operator? = some operator ∧ o.field.storageText = key ∧
      e.OutsideArrays o.field ∧ (o = .remove o.field ∨ ∃ t, e.HasScalar o.field t) := by
  obtain ⟨x, hx, rfl, rfl⟩ := exists_mem_of_hasEntry hentry
  obtain ⟨o, ho, hox⟩ := exists_operation_of_mem h hx
  obtain ⟨hoperator, hkey, houtside⟩ := nativeOperation_spec hox
  refine ⟨o, ho, hoperator, hkey.symm, houtside, ?_⟩
  cases o with
  | assign op field source =>
    obtain ⟨_, t, _, c, -, hc, -, hnode, -, -⟩ := exists_of_nativeAssignment hox
    exact .inr ⟨t, c, hc, hnode⟩
  | remove field => exact .inl rfl
  | elements array => cases hox

theorem hasEntry_of_mem
    (h : List.Forall₂ (fun o x => m.nativeOperation e o = .ok x) operations entries)
    {o : Operation} (ho : o ∈ operations) :
    ∃ operator operand, o.operator? = some operator ∧ e.OutsideArrays o.field ∧
      Record.HasEntry (Sections.ofEntries entries).document operator o.field.storageText
        operand := by
  obtain ⟨x, hx, hox⟩ := exists_entry_of_mem h ho
  obtain ⟨hoperator, hkey, houtside⟩ := nativeOperation_spec hox
  obtain ⟨operand, hentry⟩ := exists_hasEntry_of_mem hx
  rw [hkey] at hentry
  exact ⟨_, operand, hoperator, houtside, hentry⟩

/-! ### Results -/

theorem admissible_of_executable (he : e.DotFree) (hempty : "" ∉ Fields.keys e.members)
    (h : List.Forall₂ (fun o x => m.nativeOperation e o = .ok x) operations entries)
    (hD : Executable e (Sections.ofEntries entries).document) : m.Admissible e operations where
  removed field hmem := by
    obtain ⟨operator, operand, -, houtside, hentry⟩ := hasEntry_of_mem h hmem
    obtain ⟨p, t, hp, hscalar, hkey⟩ := hD.simple _ _ _ hentry
    obtain rfl : p = field := hp.eq_of_storageText houtside he hempty hkey
    exact ⟨t, hscalar⟩
  added field v hlast := by
    have hmem := (List.mem_filter.1 (List.mem_of_getLast? hlast)).1
    obtain ⟨x, -, hx⟩ := exists_entry_of_mem h hmem
    obtain ⟨-, -, houtside⟩ := nativeOperation_spec hx
    rw [← isAddend_operand_iff hx]
    exact hD.addends _ _ ((hasEntry_add_iff he hempty h houtside).2 ⟨v, x, hlast, hx, rfl⟩)
  apart o ho o' ho' hfield := by
    obtain ⟨operator, operand, hoperator, -, hentry⟩ := hasEntry_of_mem h ho
    obtain ⟨operator', operand', hoperator', -, hentry'⟩ := hasEntry_of_mem h ho'
    rw [← hfield] at hentry'
    rw [hoperator, hoperator', hD.apart _ _ _ _ _ hentry hentry']

theorem executable_of_admissible (he : e.DotFree) (hempty : "" ∉ Fields.keys e.members)
    (h : List.Forall₂ (fun o x => m.nativeOperation e o = .ok x) operations entries)
    (hu : m.Admissible e operations) : Executable e (Sections.ofEntries entries).document where
  simple operator key operand hentry := by
    obtain ⟨o, ho, -, hkey, houtside, hremove | ⟨t, ht⟩⟩ := exists_operation_of_hasEntry h hentry
    · obtain ⟨t, ht⟩ := hu.removed o.field (hremove ▸ ho)
      exact ⟨o.field, t, houtside, ht, hkey⟩
    · exact ⟨o.field, t, houtside, ht, hkey⟩
  addends key operand hentry := by
    obtain ⟨o, -, -, rfl, houtside, -⟩ := exists_operation_of_hasEntry h hentry
    obtain ⟨v, x, hlast, hx, rfl⟩ := (hasEntry_add_iff he hempty h houtside).1 hentry
    exact (isAddend_operand_iff hx).2 (hu.added _ v hlast)
  apart operator operator' key operand operand' hentry hentry' := by
    obtain ⟨o, ho, hoperator, hkey, houtside, -⟩ := exists_operation_of_hasEntry h hentry
    obtain ⟨o', ho', hoperator', hkey', houtside', -⟩ := exists_operation_of_hasEntry h hentry'
    have hfield := houtside.eq_of_storageText houtside' he hempty (hkey.trans hkey'.symm)
    have hsame := hu.apart o ho o' ho' hfield
    rw [hoperator, hoperator'] at hsame
    exact Option.some.inj hsame

end

/-- A native update has distinct sections, whose keys are those of fields outside of arrays, and of
simple ones but for what is removed. It is executable exactly when its update is admissible. -/
theorem executable_nativeUpdate_iff {u : Update} {D : Record} (he : e.DotFree)
    (hempty : "" ∉ Fields.keys e.members) (hD : m.nativeUpdate e u = .ok (.native D)) :
    D.Distinct ∧ (∀ entry ∈ D, ∃ entries : Record, entry.2 = .document entries) ∧
      (∀ operator key operand, D.HasEntry operator key operand →
        ∃ p, e.OutsideArrays p ∧ p.storageText = key ∧
          (operator ≠ removalOperator → ∃ t, e.HasScalar p t)) ∧
      (Executable e D ↔ m.Admissible e u.operations) := by
  obtain ⟨entries, h, rfl⟩ := exists_entries_of_nativeUpdate hD
  refine ⟨?_, ?_, ?_, ?_⟩
  · rw [Fields.Distinct, Sections.keys_document]
    exact (Sections.wellFormed_ofEntries entries).operators
  · intro entry hentry
    obtain ⟨present, -, rfl⟩ := List.mem_map.1 hentry
    exact ⟨present.2, rfl⟩
  · intro operator key operand hentry
    obtain ⟨o, -, hoperator, hkey, houtside, hremove | hscalar⟩ :=
      exists_operation_of_hasEntry h hentry
    · rw [hremove] at hoperator
      exact ⟨o.field, houtside, hkey, fun hne => absurd (Option.some.inj hoperator).symm hne⟩
    · exact ⟨o.field, houtside, hkey, fun _ => hscalar⟩
  · exact ⟨admissible_of_executable he hempty h, executable_of_admissible he hempty h⟩

/-- A name that is set twice, and an age that null is added to before a number. -/
theorem executable_nativeUpdate_user :
    let m : Mapper := { entities := [] }
    let e : Entity := ⟨"user", [("name", .scalar .string), ("age", .scalar .integer)]⟩
    let u : Update := .sequence [.assign .set [([.name "name"], .value (.string "Ann"))],
      .assign .add [([.name "age"], .value .null), ([.name "age"], .value (.int 2))],
      .assign .set [([.name "name"], .value (.string "Bob"))]]
    let D : Record := [("$set", .document [("name", .string "Bob")]),
      ("$inc", .document [("age", .int64 2)])]
    e.DotFree ∧ "" ∉ Fields.keys e.members ∧ m.nativeUpdate e u = .ok (.native D) ∧
      m.Admissible e u.operations ∧ Executable e D := by
  intro m e u D
  have he : e.DotFree := by
    simp [e, Entity.DotFree, Field.DotFree, Field.MembersDotFree]
  have hempty : "" ∉ Fields.keys e.members := by decide
  have hD : m.nativeUpdate e u = .ok (.native D) := rfl
  have hu : m.Admissible e u.operations := by
    refine ⟨?_, ?_, ?_⟩
    · simp [u, Update.operations, Update.operationsOf]
    · intro field v hlast
      have hfield : field = [.name "age"] := by
        have hmem := (List.mem_filter.1 (List.mem_of_getLast? hlast)).1
        simp [u, Update.operations, Update.operationsOf] at hmem
        tauto
      subst hfield
      have hlast' : Operation.lastAddition? [.name "age"] u.operations =
        some (.assign .add [.name "age"] (.value (.int 2))) := rfl
      cases hlast'.symm.trans hlast
      exact ⟨rfl, .integer, ⟨_, rfl, rfl⟩, by simp [ScalarType.Adds]⟩
    · simp [u, Update.operations, Update.operationsOf, Operation.field, Operation.operator?]
  exact ⟨he, hempty, hD, hu, (executable_nativeUpdate_iff he hempty hD).2.2.2.2 hu⟩

/-- Native updates that remove an object, add text, or set a field that they also remove. -/
theorem not_executable_nativeUpdate :
    let m : Mapper := { entities := [] }
    let e : Entity := ⟨"user", [("name", .scalar .string), ("age", .scalar .integer),
      ("address", .object [("city", .scalar .string)])]⟩
    let removal : Record := [("$unset", .document [("address", .string "")])]
    let addition : Record := [("$inc", .document [("name", .string "x")])]
    let both : Record := [("$set", .document [("age", .int64 1)]),
      ("$unset", .document [("age", .string "")])]
    (m.nativeUpdate e (.unset [[.name "address"]]) = .ok (.native removal) ∧
        ¬ Executable e removal) ∧
      (m.nativeUpdate e (.assign .add [([.name "name"], .value (.string "x"))]) =
          .ok (.native addition) ∧ ¬ Executable e addition) ∧
      (m.nativeUpdate e (.sequence [.assign .set [([.name "age"], .value (.int 1))],
          .unset [[.name "age"]]]) = .ok (.native both) ∧ ¬ Executable e both) := by
  intro m e removal addition both
  refine ⟨⟨rfl, fun h => ?_⟩, ⟨rfl, fun h => ?_⟩, ⟨rfl, fun h => ?_⟩⟩
  · have he : e.DotFree := by
      simp [e, Entity.DotFree, Field.DotFree, Field.MembersDotFree]
    have hempty : "" ∉ Fields.keys e.members := by decide
    have hentry : removal.HasEntry "$unset" "address" (.string "") :=
      ⟨_, List.mem_singleton_self _, List.mem_singleton_self _⟩
    obtain ⟨p, t, hp, ⟨c, hc, hnode⟩, hkey⟩ := h.simple _ _ _ hentry
    have haddress : e.OutsideArrays [.name "address"] := ⟨_, rfl, rfl⟩
    obtain rfl := hp.eq_of_storageText haddress he hempty hkey
    cases hc
    cases hnode
  · exact h.addends "name" (.string "x")
      ⟨_, List.mem_singleton_self _, List.mem_singleton_self _⟩
  · have hset : both.HasEntry "$set" "age" (.int64 1) :=
      ⟨_, List.mem_cons_self, List.mem_singleton_self _⟩
    have hremove : both.HasEntry "$unset" "age" (.string "") :=
      ⟨_, List.mem_cons_of_mem _ List.mem_cons_self, List.mem_singleton_self _⟩
    exact absurd (h.apart _ _ _ _ _ hset hremove) (by decide)

end Mapper

end Docstore
