import Docstore.Proofs.Except
import Docstore.Proofs.Update.Sections
import Mathlib.Data.List.Forall2

/-!
# Updates as rows of operations

However deep updates are nested, what counts is the row of their operations.

* `Operation` : one change of one place of a document;
* `Update.operations` : the operations of an update, in depth-first order;
* `Mapper.nativeOperation` : the native entry of an operation, or why it has none;
* `Mapper.exists_of_nativeAssignment` : the entry of an assignment, and what it was made from;
* `Mapper.addUpdate_eq` : an update is translated operation by operation;
* `Mapper.exists_entries_of_nativeUpdate` : a native update consists of the entries of all its
  operations.
-/

namespace Docstore

/-- One change of one place of a document. -/
inductive Operation where
  | assign (op : Assignment) (field : Path) (source : Source)
  | remove (field : Path)
  /-- A change of the elements of an array. -/
  | elements (array : Path)

namespace Update

mutual

/-- The operations of an update, in depth-first order. -/
def operations : Update → List Operation
  | .assign op fields => fields.map fun x => .assign op x.1 x.2
  | .unset fields => fields.map .remove
  | .append array _ => [.elements array]
  | .insert array _ => [.elements array]
  | .forEach array _ _ => [.elements array]
  | .sequence updates => operationsOf updates

/-- The operations of the updates of a list. -/
def operationsOf : List Update → List Operation
  | [] => []
  | update :: rest => operations update ++ operationsOf rest

end

end Update

namespace Mapper

variable (m : Mapper)

/-- The entry of an operation. -/
def nativeOperation (e : Entity) : Operation → Except Halt NativeEntry
  | .assign op field source => m.nativeAssignment e op field source
  | .remove field => nativeRemoval e field
  | .elements array => .error (.fallback (.arrayUpdate array))

/-- The sections with the entries of operations, one after another. -/
def addOperations (e : Entity) (operations : List Operation) (s : Sections) : Except Halt Sections :=
  operations.foldlM (fun s o => do return s.add (← m.nativeOperation e o)) s

variable {m} {e : Entity}

/-! ### Entries of operations -/

theorem exists_of_outsideArrays {field : Path} {c : Cursor} (h : outsideArrays e field = .ok c) :
    e.resolve? field = some c ∧ c.insideArray = false := by
  rw [outsideArrays] at h
  cases hc : e.resolve? field with
  | none =>
    rw [hc] at h
    cases h
  | some c' =>
    simp only [hc] at h
    cases hinside : c'.insideArray with
    | true => simp [hinside] at h
    | false =>
      obtain rfl : c' = c := by simpa [hinside] using h
      exact ⟨rfl, hinside⟩

/-- What is assigned is a literal of the type of a simple field outside of arrays. -/
theorem exists_of_nativeAssignment {op : Assignment} {field : Path} {source : Source}
    {x : NativeEntry} (h : m.nativeAssignment e op field source = .ok x) :
    ∃ v t canonical c, source = .value v ∧ e.resolve? field = some c ∧ c.insideArray = false ∧
      c.node = .field (.scalar t) ∧ t.cast v = .ok canonical ∧
      x = ⟨op.native, field.storageText, m.identify e.root field canonical.stored⟩ := by
  obtain ⟨c, hc, h⟩ := bind_eq_ok_iff.1 h
  obtain ⟨hresolve, hinside⟩ := exists_of_outsideArrays hc
  cases source with
  | value v =>
    obtain ⟨node, trail⟩ := c
    rcases node with (t | _ | _ | _ | _) | _ | _
    case field.scalar =>
      dsimp only at h
      cases hcast : t.cast v with
      | error cause =>
        rw [hcast] at h
        cases h
      | ok canonical =>
        rw [hcast] at h
        obtain rfl := pure_eq_ok_iff.1 h
        exact ⟨v, t, canonical, _, rfl, hresolve, hinside, rfl, hcast, rfl⟩
    all_goals cases h
  | _ => cases h

/-- What is removed is a field outside of arrays. -/
theorem exists_of_nativeRemoval {field : Path} {x : NativeEntry}
    (h : nativeRemoval e field = .ok x) :
    ∃ c, e.resolve? field = some c ∧ c.insideArray = false ∧
      x = ⟨removalOperator, field.storageText, .string ""⟩ := by
  obtain ⟨c, hc, h⟩ := bind_eq_ok_iff.1 h
  obtain ⟨hresolve, hinside⟩ := exists_of_outsideArrays hc
  exact ⟨c, hresolve, hinside, (pure_eq_ok_iff.1 h).symm⟩

/-! ### Updates -/

theorem addAssignments_eq (op : Assignment) (fields : List (Path × Source)) (s : Sections) :
    m.addAssignments e op fields s =
      m.addOperations e (fields.map fun x => .assign op x.1 x.2) s := by
  induction fields generalizing s with
  | nil => rfl
  | cons x rest ih =>
    obtain ⟨field, source⟩ := x
    rw [addAssignments, List.map_cons, addOperations, List.foldlM_cons, nativeOperation]
    cases m.nativeAssignment e op field source with
    | error halt => rfl
    | ok entry => exact ih _

theorem addRemovals_eq (fields : List Path) (s : Sections) :
    addRemovals e fields s = m.addOperations e (fields.map .remove) s := by
  induction fields generalizing s with
  | nil => rfl
  | cons field rest ih =>
    rw [addRemovals, List.map_cons, addOperations, List.foldlM_cons, nativeOperation]
    cases nativeRemoval e field with
    | error halt => rfl
    | ok entry => exact ih _

mutual

/-- An update is translated operation by operation. -/
theorem addUpdate_eq : ∀ (u : Update) (s : Sections),
    m.addUpdate e u s = m.addOperations e u.operations s
  | .assign op fields, s => by rw [addUpdate, Update.operations, addAssignments_eq]
  | .unset fields, s => by rw [addUpdate, Update.operations, addRemovals_eq]
  | .append array values, s => by rw [addUpdate, Update.operations]; rfl
  | .insert array values, s => by rw [addUpdate, Update.operations]; rfl
  | .forEach array filter update, s => by rw [addUpdate, Update.operations]; rfl
  | .sequence updates, s => by rw [addUpdate, Update.operations, addUpdates_eq]

theorem addUpdates_eq : ∀ (updates : List Update) (s : Sections),
    m.addUpdates e updates s = m.addOperations e (Update.operationsOf updates) s
  | [], s => by rw [addUpdates, Update.operationsOf]; rfl
  | update :: rest, s => by
    rw [addUpdates, Update.operationsOf, addOperations, List.foldlM_append, addUpdate_eq]
    exact congrArg (m.addOperations e update.operations s >>= ·)
      (funext fun s => addUpdates_eq rest s)

end

/-- Operations that can be translated have an entry each, and the sections consist of these. -/
theorem exists_entries_of_addOperations {operations : List Operation} {s s' : Sections}
    (h : m.addOperations e operations s = .ok s') :
    ∃ entries, List.Forall₂ (fun o x => m.nativeOperation e o = .ok x) operations entries ∧
      s' = entries.foldl Sections.add s := by
  induction operations generalizing s with
  | nil => exact ⟨[], .nil, (pure_eq_ok_iff.1 h).symm⟩
  | cons o rest ih =>
    rw [addOperations, List.foldlM_cons] at h
    obtain ⟨next, hnext, h⟩ := bind_eq_ok_iff.1 h
    obtain ⟨x, hx, hnext⟩ := bind_eq_ok_iff.1 hnext
    obtain rfl := pure_eq_ok_iff.1 hnext
    obtain ⟨entries, hentries, rfl⟩ := ih h
    exact ⟨x :: entries, .cons hx hentries, rfl⟩

/-- A native update consists of the entries of all its operations. -/
theorem exists_entries_of_nativeUpdate {u : Update} {D : Record}
    (h : m.nativeUpdate e u = .ok (.native D)) :
    ∃ entries, List.Forall₂ (fun o x => m.nativeOperation e o = .ok x) u.operations entries ∧
      D = (Sections.ofEntries entries).document := by
  rw [nativeUpdate, addUpdate_eq] at h
  cases hs : m.addOperations e u.operations [] with
  | error halt =>
    rw [hs] at h
    cases halt <;> cases h
  | ok s =>
    rw [hs] at h
    obtain rfl : s.document = D := UpdateOutcome.native.inj (Except.ok.inj h)
    obtain ⟨entries, hentries, rfl⟩ := exists_entries_of_addOperations hs
    exact ⟨entries, hentries, rfl⟩

end Mapper

end Docstore
