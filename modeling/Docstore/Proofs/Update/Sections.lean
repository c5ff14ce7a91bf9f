import Docstore.Proofs.Fields
import Docstore.Proofs.Update.Changes

/-!
# What a native update does

The store performs the sections of a native update one after another, and the entries of a section
one after another.

* `Integers` : the integers under the keys of a stored document;
* `Change.ofNative?` : what an entry of a section does to an integer;
* `performNative` : what a native update does;
* `sectionChange?` : what a section does to a single key;
* `Sections.ofEntries` : the sections that entries give, whose operands are those of the last
  entries (`get?_entries_ofEntries`).

Performing a native update does to every key what its sections do to that key, in their order
(`performNative_eq_some`).
-/

namespace Docstore

/-- The integers under the keys of a stored document. -/
abbrev Integers := String → Option Int

/-- The integers after a change under one key. -/
def Integers.change (σ : Integers) (key : String) (c : Change) : Integers :=
  fun k => if key = k then c.apply (σ k) else σ k

/-- The integer that a stored value is read as. -/
def Bson.integer? (b : Bson) : Option Int64 :=
  match ScalarType.readInteger? b with
  | some (.int n) => Bson.int64OfInt? n
  | _ => none

/-- The integer that a stored value can be added as. Text is none, whatever it reads as. -/
def Bson.increment? : Bson → Option Int64
  | .int32 n => some n.toInt64
  | .int64 n => some n
  | _ => none

/-- The change of an integer that an operator and an operand stand for. -/
def Change.ofNative? (operator : String) (operand : Bson) : Option Change :=
  if operator = Assignment.set.native then operand.integer?.map .set
  else if operator = Assignment.add.native then operand.increment?.map .add
  else if operator = removalOperator then some .unset
  else none

/-- The integers after the entries of a section. Nothing is performed that is not a change of an
integer. -/
def performEntries (operator : String) : Record → Integers → Option Integers
  | [], σ => some σ
  | (key, operand) :: rest, σ =>
    (Change.ofNative? operator operand).bind fun c => performEntries operator rest (σ.change key c)

/-- The integers after a native update. -/
def performNative : Record → Integers → Option Integers
  | [], σ => some σ
  | (operator, .document entries) :: rest, σ =>
    (performEntries operator entries σ).bind (performNative rest)
  | _ :: _, _ => none

/-- The change of a key that a section stands for. -/
def sectionChange? (key : String) : String × Bson → Option Change
  | (operator, .document entries) => (Fields.get? key entries).bind (Change.ofNative? operator)
  | _ => none

/-- A section has entries under distinct keys, and all of them change integers. -/
def Performable (entry : String × Bson) : Prop :=
  ∃ entries : Record, entry.2 = .document entries ∧ entries.Distinct ∧
    ∀ x ∈ entries, ∃ c, Change.ofNative? entry.1 x.2 = some c

variable {operator key : String} {entries D : Record} {σ σ' : Integers} {c : Change}

/-! ### Performing -/

theorem Change.operator_of_ofNative? {operand : Bson}
    (h : Change.ofNative? operator operand = some c) : c.operator = operator := by
  unfold ofNative? at h
  by_cases hset : operator = Assignment.set.native
  · rw [if_pos hset] at h
    obtain ⟨n, -, rfl⟩ := Option.map_eq_some_iff.1 h
    exact hset.symm
  rw [if_neg hset] at h
  by_cases hadd : operator = Assignment.add.native
  · rw [if_pos hadd] at h
    obtain ⟨n, -, rfl⟩ := Option.map_eq_some_iff.1 h
    exact hadd.symm
  rw [if_neg hadd] at h
  by_cases hunset : operator = removalOperator
  · rw [if_pos hunset] at h
    obtain rfl := Option.some.inj h
    exact hunset.symm
  · rw [if_neg hunset] at h
    cases h

theorem performEntries_eq_some (hd : entries.Distinct)
    (h : ∀ x ∈ entries, ∃ c, Change.ofNative? operator x.2 = some c) :
    performEntries operator entries σ = some fun key =>
      Change.run ((Fields.get? key entries).bind (Change.ofNative? operator)).toList (σ key) := by
  induction entries generalizing σ with
  | nil => rfl
  | cons x rest ih =>
    obtain ⟨key, operand⟩ := x
    obtain ⟨c, hc⟩ := h _ List.mem_cons_self
    obtain ⟨hkey, hrest⟩ := List.nodup_cons.1 hd
    rw [performEntries, hc, Option.bind_some,
      ih hrest fun x hx => h x (List.mem_cons_of_mem _ hx)]
    refine congrArg some (funext fun k => ?_)
    by_cases hk : key = k
    · subst hk
      have hnone : Fields.get? key rest = none := Fields.get?_eq_none_iff.2 hkey
      rw [hnone, Fields.get?_cons_self, Option.bind_some, hc, Integers.change, if_pos rfl]
      rfl
    · rw [Fields.get?_cons_of_ne hk, Integers.change, if_neg hk]

/-- A native update does to every key what its sections do to it. -/
theorem performNative_eq_some (h : ∀ entry ∈ D, Performable entry) :
    performNative D σ =
      some fun key => Change.run (D.filterMap (sectionChange? key)) (σ key) := by
  induction D generalizing σ with
  | nil => rfl
  | cons entry rest ih =>
    obtain ⟨operator, value⟩ := entry
    obtain ⟨entries, rfl, hd, hall⟩ := h _ List.mem_cons_self
    rw [performNative, performEntries_eq_some hd hall, Option.bind_some,
      ih fun entry hentry => h entry (List.mem_cons_of_mem _ hentry)]
    refine congrArg some (funext fun key => ?_)
    rw [List.filterMap_cons, sectionChange?]
    cases (Fields.get? key entries).bind (Change.ofNative? operator) with
    | none => rfl
    | some c => rfl

theorem ofNative?_of_performEntries (h : performEntries operator entries σ = some σ')
    {operand : Bson} (hmem : (key, operand) ∈ entries) :
    ∃ c, Change.ofNative? operator operand = some c := by
  induction entries generalizing σ with
  | nil => cases hmem
  | cons x rest ih =>
    rw [performEntries, Option.bind_eq_some_iff] at h
    obtain ⟨c, hc, hrest⟩ := h
    rcases List.mem_cons.1 hmem with rfl | hmem
    · exact ⟨c, hc⟩
    · exact ih hrest hmem

/-- What is performed consists of changes of integers. -/
theorem ofNative?_of_performNative (h : performNative D σ = some σ')
    (hsection : (operator, .document entries) ∈ D) {operand : Bson}
    (hmem : (key, operand) ∈ entries) : ∃ c, Change.ofNative? operator operand = some c := by
  induction D generalizing σ with
  | nil => cases hsection
  | cons entry rest ih =>
    obtain ⟨op, value⟩ := entry
    cases value with
    | document first =>
      rw [performNative, Option.bind_eq_some_iff] at h
      obtain ⟨τ, hfirst, hrest⟩ := h
      rcases List.mem_cons.1 hsection with heq | hsection
      · cases heq
        exact ofNative?_of_performEntries hfirst hmem
      · exact ih hrest hsection
    | _ => cases h

/-! ### Sections -/

/-- The changes of a key come from different operators. -/
theorem operators_sublist (key : String) (D : Record) :
    ((D.filterMap (sectionChange? key)).map Change.operator).Sublist D.keys := by
  induction D with
  | nil => exact List.Sublist.refl _
  | cons entry rest ih =>
    rw [List.filterMap_cons]
    cases hc : sectionChange? key entry with
    | none => exact ih.cons _
    | some c =>
      have hop : c.operator = entry.1 := by
        unfold sectionChange? at hc
        split at hc
        · obtain ⟨operand, -, hoperand⟩ := Option.bind_eq_some_iff.1 hc
          exact Change.operator_of_ofNative? hoperand
        · cases hc
      rw [List.map_cons, hop]
      exact ih.cons_cons _

namespace Sections

/-- Operators are distinct, and so are the keys of each section. -/
structure WellFormed (s : Sections) : Prop where
  operators : Fields.Distinct s
  keys : ∀ entry ∈ s, Fields.Distinct entry.2

/-- The sections that entries give one after another. -/
def ofEntries (xs : List NativeEntry) : Sections := xs.foldl add []

variable {s : Sections}

theorem entries_of_mem (hs : s.WellFormed) (h : (operator, entries) ∈ s) :
    s.entries operator = entries := by
  rw [Sections.entries, (Fields.get?_eq_some_iff_mem hs.operators).2 h]
  rfl

theorem distinct_entries (hs : s.WellFormed) (operator : String) :
    Fields.Distinct (s.entries operator) := by
  cases h : Fields.get? operator s with
  | none =>
    rw [Sections.entries, h]
    exact List.nodup_nil
  | some entries =>
    rw [Sections.entries, h]
    exact hs.keys _ (Fields.mem_of_get?_eq_some h)

theorem entries_add (s : Sections) (x : NativeEntry) (operator : String) :
    (s.add x).entries operator =
      if x.operator = operator then (s.entries operator).insert x.key x.operand
      else s.entries operator := by
  by_cases h : x.operator = operator
  · subst h
    rw [if_pos rfl, add, Sections.entries, Fields.get?_insert_self]
    rfl
  · rw [if_neg h, add, Sections.entries, Fields.get?_insert_of_ne h]
    rfl

theorem wellFormed_add (hs : s.WellFormed) (x : NativeEntry) : (s.add x).WellFormed := by
  have hoperators : Fields.Distinct (s.add x) := Fields.distinct_insert hs.operators _ _
  refine ⟨hoperators, fun entry hmem => ?_⟩
  have hget := (Fields.get?_eq_some_iff_mem hoperators).2 hmem
  have hentries : (s.add x).entries entry.1 = entry.2 := by
    rw [Sections.entries, hget]
    rfl
  rw [← hentries, entries_add]
  split
  · exact Fields.distinct_insert (distinct_entries hs _) _ _
  · exact distinct_entries hs _

theorem wellFormed_foldl (hs : s.WellFormed) (xs : List NativeEntry) :
    WellFormed (xs.foldl add s) := by
  induction xs generalizing s with
  | nil => exact hs
  | cons x xs ih => exact ih (wellFormed_add hs x)

theorem wellFormed_ofEntries (xs : List NativeEntry) : (ofEntries xs).WellFormed := by
  have hempty : WellFormed [] := ⟨List.nodup_nil, fun _ h => absurd h List.not_mem_nil⟩
  exact wellFormed_foldl hempty xs

theorem entries_foldl (xs : List NativeEntry) (s : Sections) (operator : String) :
    Sections.entries (xs.foldl add s) operator = (s.entries operator).insertAll
      ((xs.filter fun x => x.operator = operator).map fun x => (x.key, x.operand)) := by
  induction xs generalizing s with
  | nil => rfl
  | cons x xs ih =>
    rw [List.foldl_cons, ih, entries_add]
    by_cases h : x.operator = operator
    · rw [if_pos h, List.filter_cons_of_pos (by simpa using h)]
      rfl
    · rw [if_neg h, List.filter_cons_of_neg (by simpa using h)]

/-- A section is made of the entries with its operator. -/
theorem entries_ofEntries (xs : List NativeEntry) (operator : String) :
    Sections.entries (ofEntries xs) operator = Fields.ofList
      ((xs.filter fun x => x.operator = operator).map fun x => (x.key, x.operand)) :=
  entries_foldl xs [] operator

/-- Under a key of a section stands the operand of the last entry for it. -/
theorem get?_entries_ofEntries (xs : List NativeEntry) (operator key : String) :
    Fields.get? key (Sections.entries (ofEntries xs) operator) =
      (xs.filter fun x => x.operator = operator ∧ x.key = key).getLast?.map (·.operand) := by
  rw [entries_ofEntries, Fields.get?_ofList, List.filter_map, List.filter_filter,
    List.getLast?_map, Option.map_map]
  have hfilter : (fun x : NativeEntry => decide (x.operator = operator ∧ x.key = key)) =
      fun x => ((fun pair : String × Bson => decide (pair.1 = key)) ∘
        fun x : NativeEntry => (x.key, x.operand)) x && decide (x.operator = operator) := by
    funext x
    simp [Bool.and_comm]
  rw [hfilter]
  rfl

/-- The operators come in order of first use. -/
theorem keys_ofEntries (xs : List NativeEntry) :
    Fields.keys (ofEntries xs) = (xs.map NativeEntry.operator).eraseDups := by
  have hadd : ∀ (s : Sections) (x : NativeEntry), ∃ value, s.add x = s.insert x.operator value :=
    fun _ _ => ⟨_, rfl⟩
  exact Fields.keys_foldl_insert_nil hadd xs

/-- The keys of a section come in order of first use. -/
theorem keys_entries_ofEntries (xs : List NativeEntry) (operator : String) :
    Fields.keys (Sections.entries (ofEntries xs) operator) =
      ((xs.filter fun x => x.operator = operator).map NativeEntry.key).eraseDups := by
  rw [entries_ofEntries, Fields.keys_ofList, List.map_map]
  rfl

theorem mem_document (h : (operator, .document entries) ∈ s.document) :
    (operator, entries) ∈ s := by
  obtain ⟨entry, hmem, heq⟩ := List.mem_map.1 h
  cases heq
  exact hmem

/-- What stands under a key of a section is an entry of the document. -/
theorem exists_of_get?_entries {operand : Bson}
    (h : Fields.get? key (s.entries operator) = some operand) :
    ∃ entries, (operator, .document entries) ∈ s.document ∧ (key, operand) ∈ entries := by
  cases hget : Fields.get? operator s with
  | none =>
    rw [Sections.entries, hget] at h
    cases h
  | some entries =>
    rw [Sections.entries, hget] at h
    exact ⟨entries, List.mem_map.2 ⟨_, Fields.mem_of_get?_eq_some hget, rfl⟩,
      Fields.mem_of_get?_eq_some h⟩

theorem keys_document (s : Sections) : Fields.keys s.document = Fields.keys s := by
  rw [Fields.keys, document, List.map_map]
  rfl

/-- What the sections do to a key, operator by operator. -/
theorem mem_filterMap_document (hs : s.WellFormed) :
    c ∈ s.document.filterMap (sectionChange? key) ↔
      (Fields.get? key (s.entries c.operator)).bind (Change.ofNative? c.operator) = some c := by
  rw [List.mem_filterMap]
  constructor
  · rintro ⟨⟨operator, value⟩, hmem, hc⟩
    cases value with
    | document entries =>
      obtain ⟨operand, -, hoperand⟩ := Option.bind_eq_some_iff.1 hc
      rw [Change.operator_of_ofNative? hoperand, entries_of_mem hs (mem_document hmem)]
      exact hc
    | _ => cases hc
  · intro hc
    cases hget : Fields.get? c.operator s with
    | none =>
      rw [Sections.entries, hget] at hc
      cases hc
    | some entries =>
      rw [Sections.entries, hget] at hc
      exact ⟨(c.operator, .document entries),
        List.mem_map.2 ⟨_, Fields.mem_of_get?_eq_some hget, rfl⟩, hc⟩

end Sections

end Docstore
