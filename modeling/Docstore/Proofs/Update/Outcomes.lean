import Docstore.Proofs.Refusal
import Docstore.Proofs.Update.Executable

/-!
# What becomes of an update

Nothing counts but the row of the operations of an update.

* `Operation.Halts` : why an operation has no entry in a native update;
* `Operation.Gives` : the entry of an operation;
* `Record.Collects` : the native update with given entries;
* `Mapper.nativeUpdate_outcome` : the first operation that halts decides, whether the update is left
  to the caller or wrong, and without any the native update collects the entries of all.
-/

namespace Docstore

/-- Why an operation has no entry in a native update. The reason names its field. -/
inductive Operation.Halts (e : Entity) : Operation → Halt → Prop where
  | elements {array : Path} : Halts e (.elements array) (.fallback (.arrayUpdate array))
  | unknown {o : Operation} {operator : String} (ho : o.operator? = some operator)
      (h : e.resolve? o.field = none) : Halts e o (.fallback (.unknownField o.field))
  | inside {o : Operation} {operator : String} {c : Cursor} (ho : o.operator? = some operator)
      (hc : e.resolve? o.field = some c) (h : c.insideArray = true) :
      Halts e o (.fallback (.insideArray o.field))
  | notLiteral {op : Assignment} {field : Path} {source : Source} (hfield : e.OutsideArrays field)
      (h : ∀ v, source ≠ .value v) :
      Halts e (.assign op field source) (.fallback (.notLiteral field))
  | notSimple {op : Assignment} {field : Path} {v : Json} (hfield : e.OutsideArrays field)
      (h : ∀ t, ¬ e.HasScalar field t) :
      Halts e (.assign op field (.value v)) (.fallback (.notSimple field))
  | notCast {op : Assignment} {field : Path} {v : Json} {t : ScalarType} {cause : CastError}
      (hfield : e.OutsideArrays field) (ht : e.HasScalar field t) (h : t.cast v = .error cause) :
      Halts e (.assign op field (.value v)) (.failure (.conversion .update cause))

/-- The entry of an operation: its operator, the key of its field and the stored literal, which
takes the form of identifiers at the identifier. -/
inductive Operation.Gives (m : Mapper) (e : Entity) : Operation → NativeEntry → Prop where
  | assign {op : Assignment} {field : Path} {v : Json} {t : ScalarType} {c : Canonical}
      (hfield : e.OutsideArrays field) (ht : e.HasScalar field t) (hc : t.cast v = .ok c) :
      Gives m e (.assign op field (.value v)) ⟨op.native, field.storageText,
        if m.isIdPath field then c.stored.asIdentifier else c.stored⟩
  | remove {field : Path} (hfield : e.OutsideArrays field) :
      Gives m e (.remove field) ⟨removalOperator, field.storageText, .string ""⟩

/-- A native update has one section for each operator of its entries, and a section has one field
for each key of the entries of its operator, both in order of first use. Under a key stands the
operand of the last entry. -/
structure Record.Collects (D : Record) (entries : List NativeEntry) : Prop where
  operators : Fields.keys D = (entries.map NativeEntry.operator).eraseDups
  sections : ∀ operator value, (operator, value) ∈ D → ∃ fields : Record, value = .document fields ∧
    fields.keys = ((entries.filter fun x => x.operator = operator).map NativeEntry.key).eraseDups ∧
    ∀ key, fields.get? key =
      (entries.filter fun x => x.operator = operator ∧ x.key = key).getLast?.map NativeEntry.operand

variable {m : Mapper} {e : Entity}

/-! ### Single operations -/

namespace Mapper

theorem outsideArrays_of_resolve? {field : Path} {c : Cursor} (hc : e.resolve? field = some c)
    (h : c.insideArray = false) : outsideArrays e field = .ok c := by
  simp [outsideArrays, hc, h]

/-- The place of an operation is looked at before anything else. -/
theorem nativeOperation_of_outsideArrays {o : Operation} {operator : String} {halt : Halt}
    (ho : o.operator? = some operator) (h : outsideArrays e o.field = .error halt) :
    m.nativeOperation e o = .error halt := by
  cases o with
  | assign op field source =>
    have hfield : outsideArrays e field = .error halt := h
    rw [nativeOperation, nativeAssignment, hfield]
    rfl
  | remove field =>
    have hfield : outsideArrays e field = .error halt := h
    rw [nativeOperation, nativeRemoval, hfield]
    rfl
  | elements array => cases ho

/-- A literal is cast to the type of its field. -/
theorem nativeOperation_of_hasScalar {op : Assignment} {field : Path} {v : Json} {t : ScalarType}
    (hfield : e.OutsideArrays field) (ht : e.HasScalar field t) :
    m.nativeOperation e (.assign op field (.value v)) =
      match inPhase .update (t.cast v) with
      | .ok c => .ok ⟨op.native, field.storageText, m.identify e.root field c.stored⟩
      | .error error => .error (.failure error) := by
  obtain ⟨c, hc, hinside⟩ := hfield
  obtain ⟨c', hc', hnode⟩ := ht
  obtain rfl := Option.some.inj (hc.symm.trans hc')
  rw [nativeOperation, nativeAssignment, outsideArrays_of_resolve? hc hinside, ok_bind, hnode]
  rfl

theorem nativeOperation_of_halts {o : Operation} {halt : Halt} (h : o.Halts e halt) :
    m.nativeOperation e o = .error halt := by
  cases h with
  | elements => rfl
  | unknown ho h =>
    refine nativeOperation_of_outsideArrays ho ?_
    rw [outsideArrays, h]
  | inside ho hc h =>
    refine nativeOperation_of_outsideArrays ho ?_
    simp [outsideArrays, hc, h]
  | @notLiteral op field source hfield h =>
    obtain ⟨c, hc, hinside⟩ := hfield
    rw [nativeOperation, nativeAssignment, outsideArrays_of_resolve? hc hinside, ok_bind]
    cases source with
    | value v => exact absurd rfl (h v)
    | _ => rfl
  | @notSimple op field v hfield h =>
    obtain ⟨c, hc, hinside⟩ := hfield
    rw [nativeOperation, nativeAssignment, outsideArrays_of_resolve? hc hinside, ok_bind]
    have hnode : ∀ t, c.node ≠ .field (.scalar t) := fun t ht => h t ⟨c, hc, ht⟩
    obtain ⟨node, trail⟩ := c
    rcases node with (t | _ | _ | _ | _) | _ | _
    case field.scalar => exact absurd rfl (hnode t)
    all_goals rfl
  | notCast hfield ht h =>
    rw [nativeOperation_of_hasScalar hfield ht, h]
    rfl

theorem nativeOperation_of_gives {o : Operation} {x : NativeEntry} (h : o.Gives m e x) :
    m.nativeOperation e o = .ok x := by
  cases h with
  | assign hfield ht hcast =>
    rw [nativeOperation_of_hasScalar hfield ht, hcast]
    rfl
  | remove hfield =>
    obtain ⟨c, hc, hinside⟩ := hfield
    rw [nativeOperation, nativeRemoval, outsideArrays_of_resolve? hc hinside]
    rfl

/-- An operation gives an entry or has a reason not to. -/
theorem exists_gives_or_halts (m : Mapper) (e : Entity) (o : Operation) :
    (∃ x, o.Gives m e x) ∨ ∃ halt, o.Halts e halt := by
  cases o with
  | elements array => exact .inr ⟨_, .elements⟩
  | remove field =>
    cases hc : e.resolve? field with
    | none => exact .inr ⟨_, .unknown (o := .remove field) rfl hc⟩
    | some c =>
      cases hinside : c.insideArray with
      | true => exact .inr ⟨_, .inside (o := .remove field) rfl hc hinside⟩
      | false => exact .inl ⟨_, .remove ⟨c, hc, hinside⟩⟩
  | assign op field source =>
    cases hc : e.resolve? field with
    | none => exact .inr ⟨_, .unknown (o := .assign op field source) rfl hc⟩
    | some c =>
      cases hinside : c.insideArray with
      | true => exact .inr ⟨_, .inside (o := .assign op field source) rfl hc hinside⟩
      | false =>
        -- The place is good, so the source and then the type of the field decide.
        have hfield : e.OutsideArrays field := ⟨c, hc, hinside⟩
        cases source with
        | value v =>
          by_cases hscalar : ∃ t, e.HasScalar field t
          · obtain ⟨t, ht⟩ := hscalar
            cases hcast : t.cast v with
            | ok canonical => exact .inl ⟨_, .assign hfield ht hcast⟩
            | error cause => exact .inr ⟨_, .notCast hfield ht hcast⟩
          · exact .inr ⟨_, .notSimple hfield fun t ht => hscalar ⟨t, ht⟩⟩
        | _ => exact .inr ⟨_, .notLiteral hfield (by simp)⟩

theorem nativeOperation_eq_ok_iff {o : Operation} {x : NativeEntry} :
    m.nativeOperation e o = .ok x ↔ o.Gives m e x := by
  refine ⟨fun h => ?_, nativeOperation_of_gives⟩
  rcases exists_gives_or_halts m e o with ⟨y, hy⟩ | ⟨halt, hhalt⟩
  · obtain rfl := Except.ok.inj ((nativeOperation_of_gives hy).symm.trans h)
    exact hy
  · cases (nativeOperation_of_halts hhalt).symm.trans h

theorem nativeOperation_eq_error_iff {o : Operation} {halt : Halt} :
    m.nativeOperation e o = .error halt ↔ o.Halts e halt := by
  refine ⟨fun h => ?_, nativeOperation_of_halts⟩
  rcases exists_gives_or_halts m e o with ⟨y, hy⟩ | ⟨halt', hhalt⟩
  · cases (nativeOperation_of_gives hy).symm.trans h
  · obtain rfl := Except.error.inj ((nativeOperation_of_halts hhalt).symm.trans h)
    exact hhalt

/-- The place, the source and the type of an operation leave it one reason at most. -/
theorem halts_unique (o : Operation) (halt halt' : Halt) (h : o.Halts e halt)
    (h' : o.Halts e halt') : halt = halt' :=
  Except.error.inj ((nativeOperation_of_halts (m := { entities := [] }) h).symm.trans
    (nativeOperation_of_halts h'))

/-! ### Rows of operations -/

variable {operations : List Operation} {entries : List NativeEntry}

/-- A row of operations is refused for the first that halts. -/
theorem refuses_addOperations (operations : List Operation) (s : Sections) :
    Refuses (Operation.Halts e) (m.addOperations e operations s) operations := by
  induction operations generalizing s with
  | nil => exact .pass s
  | cons o rest ih =>
    rw [addOperations, List.foldlM_cons]
    cases ho : m.nativeOperation e o with
    | error halt => exact .stop (nativeOperation_eq_error_iff.1 ho) rest
    | ok x =>
      -- What the entry is does not matter to the operations after it.
      refine (ih (s.add x)).cons fun halt hhalt => ?_
      cases ho.symm.trans (nativeOperation_of_halts hhalt)

/-- Operations that all give an entry give the sections of these. -/
theorem addOperations_of_gives (h : List.Forall₂ (Operation.Gives m e) operations entries)
    (s : Sections) : m.addOperations e operations s = .ok (entries.foldl Sections.add s) := by
  induction h generalizing s with
  | nil => rfl
  | cons ho _ ih =>
    rw [addOperations, List.foldlM_cons, nativeOperation_of_gives ho]
    exact ih _

end Mapper

/-! ### Native updates -/

theorem Sections.collects_document (entries : List NativeEntry) :
    (Sections.ofEntries entries).document.Collects entries where
  operators := by rw [keys_document, keys_ofEntries]
  sections operator value h := by
    obtain ⟨⟨_, fields⟩, hmem, heq⟩ := List.mem_map.1 h
    obtain ⟨rfl, rfl⟩ := Prod.mk.inj heq
    have hfields := entries_of_mem (wellFormed_ofEntries entries) hmem
    refine ⟨fields, rfl, ?_, fun key => ?_⟩
    · rw [← hfields, keys_entries_ofEntries]
    · rw [← hfields, get?_entries_ofEntries]

theorem Record.Collects.distinct {D : Record} {entries : List NativeEntry}
    (h : D.Collects entries) : D.Distinct := by
  rw [Fields.Distinct, h.operators, ← Sections.keys_ofEntries]
  exact (Sections.wellFormed_ofEntries entries).operators

/-- There is one native update with given entries. -/
theorem Record.Collects.unique {D D' : Record} {entries : List NativeEntry} (h : D.Collects entries)
    (h' : D'.Collects entries) : D = D' := by
  have hkeys : Fields.keys D = Fields.keys D' := h.operators.trans h'.operators.symm
  refine Fields.ext_keys h.distinct hkeys fun operator => ?_
  cases hvalue : Fields.get? operator D with
  | none => exact ((Fields.get?_eq_none_iff_of_keys hkeys operator).1 hvalue).symm
  | some value =>
    cases hvalue' : Fields.get? operator D' with
    | none =>
      rw [(Fields.get?_eq_none_iff_of_keys hkeys operator).2 hvalue'] at hvalue
      cases hvalue
    | some value' =>
      obtain ⟨fields, rfl, hfields, hget⟩ := h.sections _ _ (Fields.mem_of_get?_eq_some hvalue)
      obtain ⟨fields', rfl, hfields', hget'⟩ := h'.sections _ _ (Fields.mem_of_get?_eq_some hvalue')
      have hdistinct : fields.Distinct := by
        rw [Fields.Distinct, hfields, ← Sections.keys_entries_ofEntries]
        exact Sections.distinct_entries (Sections.wellFormed_ofEntries entries) operator
      rw [Fields.ext_keys hdistinct (hfields.trans hfields'.symm) fun key =>
        (hget key).trans (hget' key).symm]

namespace Mapper

/-- The first operation of an update that halts decides: the update is left to the caller, or it is
wrong, for the reason of that operation. Without any the native update collects the entries of all
operations. Updates with the same operations have the same outcome, however they are nested. -/
theorem nativeUpdate_outcome (m : Mapper) (e : Entity) (u : Update) :
    (∀ reason, m.nativeUpdate e u = .ok (.fallback reason) ↔
        FirstOf (Operation.Halts e) u.operations (.fallback reason)) ∧
      (∀ err, m.nativeUpdate e u = .error err ↔
        FirstOf (Operation.Halts e) u.operations (.failure err)) ∧
      ((∃ D, m.nativeUpdate e u = .ok (.native D)) ↔
        ∀ o ∈ u.operations, ∀ halt, ¬ o.Halts e halt) ∧
      (∀ D, m.nativeUpdate e u = .ok (.native D) ↔
        ∃ entries, List.Forall₂ (Operation.Gives m e) u.operations entries ∧ D.Collects entries) ∧
      ∀ u' : Update, u'.operations = u.operations → m.nativeUpdate e u' = m.nativeUpdate e u := by
  have hrefuses : Refuses (Operation.Halts e) (m.addOperations e u.operations []) u.operations :=
    refuses_addOperations u.operations []
  have hfirst (halt : Halt) : m.addOperations e u.operations [] = .error halt ↔
      FirstOf (Operation.Halts e) u.operations halt := hrefuses.eq_error_iff halts_unique
  have hpass := hrefuses.exists_ok_iff
  have hsame (u' : Update) (h : u'.operations = u.operations) :
      m.nativeUpdate e u' = m.nativeUpdate e u := by
    rw [nativeUpdate, nativeUpdate, addUpdate_eq, addUpdate_eq, h]
  refine ⟨fun reason => ?_, fun err => ?_, ?_, fun D => ?_, hsame⟩
  · rw [← hfirst, nativeUpdate, addUpdate_eq]
    cases m.addOperations e u.operations [] with
    | ok s => simp
    | error halt => cases halt <;> simp
  · rw [← hfirst, nativeUpdate, addUpdate_eq]
    cases m.addOperations e u.operations [] with
    | ok s => simp
    | error halt => cases halt <;> simp
  · rw [← hpass, nativeUpdate, addUpdate_eq]
    cases m.addOperations e u.operations [] with
    | ok s => simp
    | error halt => cases halt <;> simp
  · constructor
    · intro h
      obtain ⟨entries, hentries, rfl⟩ := exists_entries_of_nativeUpdate h
      exact ⟨entries, hentries.imp fun o x => nativeOperation_eq_ok_iff.1,
        Sections.collects_document entries⟩
    · rintro ⟨entries, hentries, hD⟩
      rw [nativeUpdate, addUpdate_eq, addOperations_of_gives hentries [],
        hD.unique (Sections.collects_document entries)]
      rfl

/-- An unknown field decides before a later literal that cannot be cast. -/
theorem nativeUpdate_outcome_unknown :
    let m : Mapper := { entities := [] }
    let e : Entity := ⟨"user", [("age", .scalar .integer), ("name", .scalar .string)]⟩
    let u : Update := .sequence [.assign .set [([.name "name"], .value (.string "Ann"))],
      .sequence [.unset [[.name "mail"]]],
      .assign .add [([.name "age"], .value (.string "old"))]]
    m.nativeUpdate e u = .ok (.fallback (.unknownField [.name "mail"])) := by
  intro m e u
  have hname : m.nativeOperation e (.assign .set [.name "name"] (.value (.string "Ann"))) =
      .ok ⟨"$set", "name", .string "Ann"⟩ := rfl
  refine ((nativeUpdate_outcome m e u).1 _).2 (.later (fun halt h => ?_) (.here ?_))
  · cases hname.symm.trans (nativeOperation_of_halts h)
  · exact .unknown (o := .remove [.name "mail"]) rfl rfl

end Mapper

end Docstore
