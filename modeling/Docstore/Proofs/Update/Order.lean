import Docstore.Proofs.Except
import Docstore.Proofs.Identifier
import Docstore.Proofs.Update.Sections

/-!
# Updates of integers and their native forms

An update of integer fields is performed change by change, depth first. Its native form keeps the
last change of each operator for each field and loses the others, and the order among operators.

* `FieldChange` : a change of one field;
* `Update.changes?` : the changes of an update of integer fields, in depth-first order;
* `performAll` : what the changes do, one after another;
* `Mapper.Collectable` : the exact condition under which the native form does the same.

The sections of a native form are the entries of the changes (`nativeUpdate_eq_document`), and under
each key they hold a list that collects the changes of that key (`collects_sections`).
-/

namespace Docstore

/-! ### Changes of fields -/

/-- A change of an integer field. -/
structure FieldChange where
  field : Path
  change : Change
deriving DecidableEq

namespace FieldChange

/-- The key of the field in a stored document. -/
def key (c : FieldChange) : String := c.field.storageText

/-- The changes under a key, in order. -/
def underKey (key : String) (cs : List FieldChange) : List Change :=
  (cs.filter fun c => c.key = key).map (·.change)

/-- The last change of an operator under a key. -/
def lastAt (operator key : String) (cs : List FieldChange) : Option FieldChange :=
  (cs.filter fun c => c.change.operator = operator ∧ c.key = key).getLast?

theorem mem_of_lastAt {operator key : String} {cs : List FieldChange} {c : FieldChange}
    (h : lastAt operator key cs = some c) :
    c ∈ cs ∧ c.change.operator = operator ∧ c.key = key := by
  have hmem := List.mem_of_getLast? h
  simpa using List.mem_filter.1 hmem

theorem lastWith_underKey (operator key : String) (cs : List FieldChange) :
    Change.lastWith operator (underKey key cs) = (lastAt operator key cs).map (·.change) := by
  unfold Change.lastWith underKey lastAt
  have hfilter : (cs.filter fun c => c.key = key).filter (fun c => c.change.operator = operator) =
      cs.filter fun c => c.change.operator = operator ∧ c.key = key := by
    rw [List.filter_filter]
    refine List.filter_congr fun c _ => ?_
    simp
  rw [List.filter_map, List.getLast?_map, ← hfilter]
  rfl

end FieldChange

open FieldChange (underKey lastAt)

/-- The integers after changes of fields one after another. -/
def performAll (cs : List FieldChange) (σ : Integers) : Integers :=
  cs.foldl (fun σ c => σ.change c.key c.change) σ

/-- Each field goes through the changes under its own key. -/
theorem performAll_apply (cs : List FieldChange) (σ : Integers) (key : String) :
    performAll cs σ key = Change.run (underKey key cs) (σ key) := by
  unfold performAll
  induction cs generalizing σ with
  | nil => rfl
  | cons c cs ih =>
    rw [List.foldl_cons, ih, Integers.change, underKey, underKey]
    by_cases h : c.key = key
    · rw [if_pos h, List.filter_cons_of_pos (by simpa using h)]
      rfl
    · rw [if_neg h, List.filter_cons_of_neg (by simpa using h)]

/-! ### Updates of integers -/

/-- The node is a simple integer field. -/
def Node.isInteger : Node → Bool
  | .field (.scalar .integer) => true
  | _ => false

/-- A path leads to an integer field. -/
def Entity.isInteger (e : Entity) (p : Path) : Bool := (e.resolve? p).any fun c => c.node.isInteger

theorem Entity.node_of_isInteger (e : Entity) {p : Path} (h : e.isInteger p = true) :
    ∃ c, e.resolve? p = some c ∧ c.node = .field (.scalar .integer) := by
  obtain ⟨c, hc, hnode⟩ := (Option.any_eq_true _ _).1 h
  refine ⟨c, hc, ?_⟩
  unfold Node.isInteger at hnode
  split at hnode
  · assumption
  · cases hnode

/-- The integer that a literal denotes. -/
def Source.integer? : Source → Option Int64
  | .value literal => ScalarType.castInteger? literal
  | _ => none

/-- The change that an assignment of an integer makes. -/
def Assignment.change : Assignment → Int64 → Change
  | .set => .set
  | .add => .add

/-- A change of a field, when it is an integer field. -/
def Entity.fieldChange? (e : Entity) (field : Path) (change? : Option Change) :
    Option FieldChange :=
  if e.isInteger field then change?.map (FieldChange.mk field) else none

namespace Update

mutual

/-- The changes of an update that sets integer fields to integers, adds integers to them and removes
them, in depth-first order. -/
def changes? (e : Entity) : Update → Option (List FieldChange)
  | .assign op fields => fields.mapM fun x => e.fieldChange? x.1 (x.2.integer?.map op.change)
  | .unset fields => fields.mapM fun field => e.fieldChange? field (some .unset)
  | .sequence updates => changesOf? e updates
  | _ => none

/-- The changes of the updates of a list. -/
def changesOf? (e : Entity) : List Update → Option (List FieldChange)
  | [] => some []
  | update :: rest => do return (← changes? e update) ++ (← changesOf? e rest)

end

end Update

namespace Mapper

variable {m : Mapper} {e : Entity}

/-- The entry that a change of a field becomes. -/
def changeEntry (m : Mapper) (e : Entity) (c : FieldChange) : NativeEntry :=
  match c.change with
  | .set n => ⟨Assignment.set.native, c.key, m.identify e.root c.field (.int64 n)⟩
  | .add n => ⟨Assignment.add.native, c.key, m.identify e.root c.field (.int64 n)⟩
  | .unset => ⟨removalOperator, c.key, .string ""⟩

theorem changeEntry_operator (c : FieldChange) :
    (m.changeEntry e c).operator = c.change.operator := by
  unfold changeEntry
  cases c.change <;> rfl

theorem changeEntry_key (c : FieldChange) : (m.changeEntry e c).key = c.key := by
  unfold changeEntry
  cases c.change <;> rfl

/-- The change of an integer field, and what it was made from. -/
theorem fieldChange?_eq_some_iff {field : Path} {change? : Option Change} {c : FieldChange} :
    e.fieldChange? field change? = some c ↔
      e.isInteger field = true ∧ c.field = field ∧ change? = some c.change := by
  unfold Entity.fieldChange?
  by_cases hinteger : e.isInteger field = true
  · rw [if_pos hinteger, Option.map_eq_some_iff]
    constructor
    · rintro ⟨change, rfl, rfl⟩
      exact ⟨hinteger, rfl, rfl⟩
    · rintro ⟨-, rfl, rfl⟩
      exact ⟨c.change, rfl, rfl⟩
  · rw [if_neg hinteger]
    simp [hinteger]

/-! ### Entries of changes -/

/-- The native form of an assignment is the entry of its change. -/
theorem nativeAssignment_eq_ok {op : Assignment} {field : Path} {source : Source} {c : FieldChange}
    {entry : NativeEntry} (hc : e.fieldChange? field (source.integer?.map op.change) = some c)
    (h : m.nativeAssignment e op field source = .ok entry) : entry = m.changeEntry e c := by
  obtain ⟨hinteger, hfield, hchange⟩ := fieldChange?_eq_some_iff.1 hc
  obtain ⟨n, hn, hop⟩ := Option.map_eq_some_iff.1 hchange
  obtain ⟨cursor, hcursor, hnode⟩ := e.node_of_isInteger hinteger
  rw [nativeAssignment, bind_eq_ok_iff] at h
  obtain ⟨cursor', hcursor', h⟩ := h
  obtain rfl : cursor = cursor' := by
    rw [outsideArrays, hcursor] at hcursor'
    dsimp only at hcursor'
    split at hcursor'
    · cases hcursor'
    · exact Except.ok.inj hcursor'
  cases source with
  | value literal =>
    -- Null would be stored as null, but it denotes no integer.
    have hnull : literal ≠ .null := by
      intro heq
      subst heq
      cases hn
    have hcast : ScalarType.integer.cast literal = .ok (.integer n) := by
      rw [ScalarType.cast_eq_ok_iff (by simp) hnull, ScalarType.canonical?]
      exact congrArg (Option.map Canonical.integer) hn
    rw [hnode] at h
    dsimp only at h
    rw [hcast, inPhase] at h
    obtain rfl := Except.ok.inj h
    unfold changeEntry
    rw [← hop, FieldChange.key, hfield]
    cases op <;> rfl
  | field path => cases hn
  | emptyObject => cases hn
  | emptyArray => cases hn

/-- The native form of a removal is the entry of its change. -/
theorem nativeRemoval_eq_ok {field : Path} {c : FieldChange} {entry : NativeEntry}
    (hc : e.fieldChange? field (some .unset) = some c) (h : nativeRemoval e field = .ok entry) :
    entry = m.changeEntry e c := by
  obtain ⟨-, hfield, hchange⟩ := fieldChange?_eq_some_iff.1 hc
  rw [nativeRemoval, bind_eq_ok_iff] at h
  obtain ⟨cursor, -, h⟩ := h
  obtain rfl := Except.ok.inj h
  unfold changeEntry
  rw [← Option.some.inj hchange, FieldChange.key, hfield]

theorem exists_of_mapM_cons {α β : Type} {f : α → Option β} {a : α} {as : List α} {bs : List β}
    (h : (a :: as).mapM f = some bs) :
    ∃ b bs', f a = some b ∧ as.mapM f = some bs' ∧ bs = b :: bs' := by
  rw [List.mapM_cons, Option.bind_eq_bind, Option.bind_eq_some_iff] at h
  obtain ⟨b, hb, h⟩ := h
  rw [Option.bind_eq_bind, Option.bind_eq_some_iff] at h
  obtain ⟨bs', hbs', heq⟩ := h
  exact ⟨b, bs', hb, hbs', (Option.some.inj heq).symm⟩

theorem addAssignments_eq_ok {op : Assignment} {fields : List (Path × Source)}
    {cs : List FieldChange} {s s' : Sections}
    (hcs : (fields.mapM fun x => e.fieldChange? x.1 (x.2.integer?.map op.change)) = some cs)
    (h : m.addAssignments e op fields s = .ok s') :
    s' = (cs.map (m.changeEntry e)).foldl Sections.add s := by
  induction fields generalizing cs s with
  | nil =>
    cases hcs
    exact (Except.ok.inj h).symm
  | cons x rest ih =>
    obtain ⟨field, source⟩ := x
    obtain ⟨c, cs', hc, hcs', rfl⟩ := exists_of_mapM_cons hcs
    rw [addAssignments, bind_eq_ok_iff] at h
    obtain ⟨entry, hentry, hrest⟩ := h
    rw [nativeAssignment_eq_ok hc hentry] at hrest
    rw [List.map_cons, List.foldl_cons]
    exact ih hcs' hrest

theorem addRemovals_eq_ok {fields : List Path} {cs : List FieldChange} {s s' : Sections}
    (hcs : (fields.mapM fun field => e.fieldChange? field (some .unset)) = some cs)
    (h : addRemovals e fields s = .ok s') :
    s' = (cs.map (m.changeEntry e)).foldl Sections.add s := by
  induction fields generalizing cs s with
  | nil =>
    cases hcs
    exact (Except.ok.inj h).symm
  | cons field rest ih =>
    obtain ⟨c, cs', hc, hcs', rfl⟩ := exists_of_mapM_cons hcs
    rw [addRemovals, bind_eq_ok_iff] at h
    obtain ⟨entry, hentry, hrest⟩ := h
    rw [@nativeRemoval_eq_ok m _ _ _ _ hc hentry] at hrest
    rw [List.map_cons, List.foldl_cons]
    exact ih hcs' hrest

mutual

/-- Updates add the entries of their changes to the sections, in depth-first order. -/
theorem addUpdate_eq_ok {cs : List FieldChange} {s s' : Sections} :
    (u : Update) → u.changes? e = some cs → m.addUpdate e u s = .ok s' →
      s' = (cs.map (m.changeEntry e)).foldl Sections.add s
  | .assign _ _, hcs, h => addAssignments_eq_ok hcs h
  | .unset _, hcs, h => addRemovals_eq_ok hcs h
  | .append _ _, hcs, _ => nomatch hcs
  | .insert _ _, hcs, _ => nomatch hcs
  | .forEach _ _ _, hcs, _ => nomatch hcs
  | .sequence updates, hcs, h => addUpdates_eq_ok updates hcs h

theorem addUpdates_eq_ok {cs : List FieldChange} {s s' : Sections} :
    (us : List Update) → Update.changesOf? e us = some cs → m.addUpdates e us s = .ok s' →
      s' = (cs.map (m.changeEntry e)).foldl Sections.add s
  | [], hcs, h => by
    cases hcs
    exact (Except.ok.inj h).symm
  | u :: us, hcs, h => by
    obtain ⟨first, hfirst, hcs⟩ := Option.bind_eq_some_iff.1 hcs
    obtain ⟨rest, hrest, heq⟩ := Option.bind_eq_some_iff.1 hcs
    obtain rfl := Option.some.inj heq
    rw [addUpdates, bind_eq_ok_iff] at h
    obtain ⟨s₁, h₁, h⟩ := h
    rw [List.map_append, List.foldl_append, ← addUpdate_eq_ok u hfirst h₁]
    exact addUpdates_eq_ok us hrest h

end

/-- The native form of an update of integers holds the entries of its changes. -/
theorem nativeUpdate_eq_document {u : Update} {cs : List FieldChange} {D : Record}
    (hcs : u.changes? e = some cs) (h : m.nativeUpdate e u = .ok (.native D)) :
    D = (Sections.ofEntries (cs.map (m.changeEntry e))).document := by
  unfold nativeUpdate at h
  split at h
  · rename_i s hs
    cases h
    rw [addUpdate_eq_ok u hcs hs]
    rfl
  · cases h
  · cases h

/-! ### What the entries do -/

/-- The change adds to the identifier of the document, whose stored form is text. -/
def AddsToIdentifier (m : Mapper) (c : FieldChange) : Prop :=
  m.isIdPath c.field = true ∧ c.change.operator = Assignment.add.native

/-- The native form of these changes does the same: it does so under each key, and no operand that
is left is the text of an identifier. -/
structure Collectable (m : Mapper) (cs : List FieldChange) : Prop where
  keys : ∀ key, Change.Collectable (underKey key cs)
  identifier : ∀ c, lastAt Assignment.add.native c.key cs = some c → ¬ m.AddsToIdentifier c

theorem integer?_identify (field : Path) (n : Int64) :
    (m.identify e.root field (.int64 n)).integer? = some n := by
  unfold identify
  split
  · rw [Bson.asIdentifier_int64, Bson.integer?, ScalarType.readInteger?,
      ScalarType.int64OfText?_intText]
    exact ScalarType.int64OfInt?_toInt n
  · exact ScalarType.int64OfInt?_toInt n

theorem increment?_identify (field : Path) (n : Int64) :
    (m.identify e.root field (.int64 n)).increment? =
      if m.isIdPath field = true then none else some n := by
  unfold identify
  by_cases hid : m.isIdPath field = true
  · rw [if_pos hid, if_pos (by simp [hid, Entity.root, Cursor.isRoot]), Bson.asIdentifier_int64]
    rfl
  · rw [if_neg hid, if_neg (by simp [hid])]
    rfl

/-- The entry of a change stands for it, unless it adds to the identifier. -/
theorem ofNative?_changeEntry {c : FieldChange} (h : ¬ m.AddsToIdentifier c) :
    Change.ofNative? c.change.operator (m.changeEntry e c).operand = some c.change := by
  obtain ⟨field, change⟩ := c
  cases change with
  | set n =>
    have hoperand : (m.changeEntry e ⟨field, .set n⟩).operand.integer? = some n :=
      integer?_identify field n
    exact (if_pos rfl).trans (congrArg (Option.map Change.set) hoperand)
  | add n =>
    have hid : ¬ m.isIdPath field = true := fun hid => h ⟨hid, rfl⟩
    have hoperand : (m.changeEntry e ⟨field, .add n⟩).operand.increment? = some n :=
      (increment?_identify field n).trans (if_neg hid)
    have hop : Assignment.add.native ≠ Assignment.set.native := by decide
    exact (if_neg hop).trans ((if_pos rfl).trans (congrArg (Option.map Change.add) hoperand))
  | unset => rfl

theorem ofNative?_changeEntry_eq_none {c : FieldChange} (h : m.AddsToIdentifier c) :
    Change.ofNative? c.change.operator (m.changeEntry e c).operand = none := by
  obtain ⟨field, change⟩ := c
  obtain ⟨hid, hop⟩ := h
  obtain ⟨n, rfl⟩ := Change.operator_eq_add_iff.1 hop
  have hoperand : (m.changeEntry e ⟨field, .add n⟩).operand.increment? = none :=
    (increment?_identify field n).trans (if_pos hid)
  have hop : Assignment.add.native ≠ Assignment.set.native := by decide
  exact (if_neg hop).trans ((if_pos rfl).trans (congrArg (Option.map Change.add) hoperand))

/-- Under a key of a section stands the operand of the last change. -/
theorem get?_sections (e : Entity) (cs : List FieldChange) (operator key : String) :
    Fields.get? key (Sections.entries (Sections.ofEntries (cs.map (m.changeEntry e))) operator) =
      (lastAt operator key cs).map fun c => (m.changeEntry e c).operand := by
  have hfilter : (cs.filter ((fun x : NativeEntry => decide (x.operator = operator ∧ x.key = key)) ∘
      m.changeEntry e)) = cs.filter fun c => c.change.operator = operator ∧ c.key = key := by
    refine List.filter_congr fun c _ => ?_
    rw [Function.comp_apply, changeEntry_operator, changeEntry_key]
  rw [Sections.get?_entries_ofEntries, List.filter_map, hfilter, List.getLast?_map, Option.map_map]
  rfl

section

variable {cs : List FieldChange}
  (hid : ∀ c, lastAt Assignment.add.native c.key cs = some c → ¬ m.AddsToIdentifier c)

include hid

theorem ofNative?_of_lastAt {operator key : String} {c : FieldChange}
    (h : lastAt operator key cs = some c) :
    Change.ofNative? operator (m.changeEntry e c).operand = some c.change := by
  obtain ⟨-, rfl, rfl⟩ := FieldChange.mem_of_lastAt h
  refine ofNative?_changeEntry fun hadds => ?_
  rw [hadds.2] at h
  exact hid c h hadds

/-- Each section can be performed. -/
theorem performable_sections (e : Entity) :
    ∀ entry ∈ (Sections.ofEntries (cs.map (m.changeEntry e))).document, Performable entry := by
  have hs := Sections.wellFormed_ofEntries (cs.map (m.changeEntry e))
  intro entry hmem
  obtain ⟨⟨operator, entries⟩, hsection, rfl⟩ := List.mem_map.1 hmem
  refine ⟨entries, rfl, hs.keys _ hsection, fun x hx => ?_⟩
  have hget := (Fields.get?_eq_some_iff_mem (hs.keys _ hsection)).2 hx
  rw [← Sections.entries_of_mem hs hsection, get?_sections, Option.map_eq_some_iff] at hget
  obtain ⟨c, hc, hoperand⟩ := hget
  exact ⟨c.change, hoperand ▸ ofNative?_of_lastAt hid hc⟩

/-- What the sections do to a key collects the changes under that key. -/
theorem collects_sections (e : Entity) (key : String) :
    Change.Collects ((Sections.ofEntries (cs.map (m.changeEntry e))).document.filterMap
      (sectionChange? key)) (underKey key cs) := by
  have hs := Sections.wellFormed_ofEntries (cs.map (m.changeEntry e))
  refine ⟨(operators_sublist key _).nodup (Sections.keys_document _ ▸ hs.operators), ?_⟩
  intro d
  rw [Sections.mem_filterMap_document hs, get?_sections, FieldChange.lastWith_underKey]
  cases hlast : lastAt d.operator key cs with
  | none => exact ⟨nofun, nofun⟩
  | some c =>
    rw [Option.map_some, Option.map_some, Option.bind_some, ofNative?_of_lastAt hid hlast]

/-- In whatever order they are performed, the sections do what they do to each key. -/
theorem performNative_perm {D D' : Record}
    (hD : D = (Sections.ofEntries (cs.map (m.changeEntry e))).document) (hperm : D'.Perm D)
    (σ : Integers) : performNative D' σ =
      some fun key => Change.run (D'.filterMap (sectionChange? key)) (σ key) := by
  refine performNative_eq_some fun entry hmem => ?_
  rw [hperm.mem_iff, hD] at hmem
  exact performable_sections hid e entry hmem

end

/-- Nothing is lost where no field is changed twice and nothing is added to the identifier. -/
theorem Collectable.of_nodup {cs : List FieldChange} (hkeys : (cs.map FieldChange.key).Nodup)
    (hid : ∀ c ∈ cs, ¬ m.AddsToIdentifier c) : m.Collectable cs := by
  refine ⟨fun key => ?_, fun c hc => hid c (FieldChange.mem_of_lastAt hc).1⟩
  have hsub : ((cs.filter fun c => c.key = key).map FieldChange.key).Nodup :=
    (List.filter_sublist.map _).nodup hkeys
  have hall : ∀ c ∈ cs.filter (fun c => c.key = key), c.key = key := fun c hc => by
    simpa using (List.mem_filter.1 hc).2
  unfold underKey
  cases h : cs.filter fun c => c.key = key with
  | nil => exact .inl fun c hc => absurd hc List.not_mem_nil
  | cons c rest =>
    cases rest with
    | nil => exact Change.collectable_singleton c.change
    | cons d rest =>
      rw [h] at hsub hall
      simp [hall c, hall d] at hsub

/-- An operand that is the text of an identifier cannot be added. -/
theorem not_addsToIdentifier_of_performNative {cs : List FieldChange} {D : Record}
    {σ σ' : Integers} {c : FieldChange}
    (hD : D = (Sections.ofEntries (cs.map (m.changeEntry e))).document)
    (h : performNative D σ = some σ') (hc : lastAt Assignment.add.native c.key cs = some c) :
    ¬ m.AddsToIdentifier c := by
  intro hadds
  have hget := get?_sections (m := m) e cs Assignment.add.native c.key
  rw [hc, Option.map_some] at hget
  obtain ⟨entries, hsection, hmem⟩ := Sections.exists_of_get?_entries hget
  obtain ⟨d, hd⟩ := ofNative?_of_performNative h (hD ▸ hsection) hmem
  rw [← hadds.2, ofNative?_changeEntry_eq_none hadds] at hd
  cases hd

/-- The native form of an update of integers does the same as the update, whatever the order of its
sections, exactly when under each key the field is only removed, or it is never removed, what is
added in the end is worth the last addition, and that one is worth nothing if the field is also
set; and no addition that is left is one to the identifier. -/
theorem performNative_nativeUpdate_iff {u : Update} {cs : List FieldChange} {D : Record}
    (hcs : u.changes? e = some cs) (h : m.nativeUpdate e u = .ok (.native D)) (σ : Integers) :
    (∀ D' : Record, D'.Perm D → performNative D' σ = some (performAll cs σ)) ↔
      m.Collectable cs := by
  have hD := nativeUpdate_eq_document hcs h
  constructor
  · intro hsame
    have hid : ∀ c, lastAt Assignment.add.native c.key cs = some c → ¬ m.AddsToIdentifier c :=
      fun c => not_addsToIdentifier_of_performNative hD (hsame D (.refl D))
    refine ⟨fun key => ?_, hid⟩
    have hcollects := hD ▸ collects_sections hid e key
    refine Change.collectable_of_run_eq (v := σ key) fun d hd => ?_
    -- The section with the change is performed last.
    obtain ⟨entry, hmem, hchange⟩ := List.mem_filterMap.1 (hcollects.mem_iff.2 hd)
    obtain ⟨before, after, heq⟩ := List.append_of_mem hmem
    have hperm : (before ++ after ++ [entry]).Perm D := by
      rw [heq, List.append_assoc]
      exact (List.perm_append_singleton entry after).append_left before
    have hmap : (before ++ after ++ [entry]).filterMap (sectionChange? key) =
        (before ++ after).filterMap (sectionChange? key) ++ [d] := by
      rw [List.filterMap_append, List.filterMap_cons_some hchange, List.filterMap_nil]
    refine ⟨_, hmap ▸ hcollects.of_perm (hperm.filterMap _), ?_⟩
    have hrun := (performNative_perm hid hD hperm σ).symm.trans (hsame _ hperm)
    have hkey := congrFun (Option.some.inj hrun) key
    rw [performAll_apply] at hkey
    rw [← hmap]
    exact hkey
  · intro hc D' hperm
    rw [performNative_perm hc.identifier hD hperm]
    refine congrArg some (funext fun key => ?_)
    have hcollects := hD ▸ collects_sections hc.identifier e key
    rw [performAll_apply]
    exact Change.run_eq_of_collects (hc.keys key) (hcollects.of_perm (hperm.filterMap _))

/-- Two fields, one with an addition and one that is removed. -/
theorem performNative_nativeUpdate_two_fields :
    let e : Entity := ⟨"user", [("age", .scalar .integer), ("size", .scalar .integer)]⟩
    let m : Mapper := { entities := [] }
    let u : Update := .sequence [.assign .add [([.name "age"], .value (.int 1))],
      .unset [[.name "size"]]]
    let cs : List FieldChange := [⟨[.name "age"], .add 1⟩, ⟨[.name "size"], .unset⟩]
    let D : Record := [("$inc", .document [("age", .int64 1)]),
      ("$unset", .document [("size", .string "")])]
    u.changes? e = some cs ∧ m.nativeUpdate e u = .ok (.native D) ∧
      ∀ σ (D' : Record), D'.Perm D → performNative D' σ = some (performAll cs σ) := by
  intro e m u cs D
  have hkeys : (cs.map FieldChange.key).Nodup := by decide
  have hid : ∀ c ∈ cs, ¬ m.AddsToIdentifier c := by
    simp [cs, AddsToIdentifier, isIdPath, m]
  have hcs : u.changes? e = some cs := rfl
  have hD : m.nativeUpdate e u = .ok (.native D) := rfl
  exact ⟨hcs, hD, fun σ => (performNative_nativeUpdate_iff hcs hD σ).2 (.of_nodup hkeys hid)⟩

/-- Of two additions to one field, the native form keeps the second. -/
theorem performNative_two_additions :
    let e : Entity := ⟨"user", [("age", .scalar .integer)]⟩
    let m : Mapper := { entities := [] }
    let u : Update := .sequence [.assign .add [([.name "age"], .value (.int 1))],
      .assign .add [([.name "age"], .value (.int 2))]]
    let cs : List FieldChange := [⟨[.name "age"], .add 1⟩, ⟨[.name "age"], .add 2⟩]
    let D : Record := [("$inc", .document [("age", .int64 2)])]
    u.changes? e = some cs ∧ m.nativeUpdate e u = .ok (.native D) ∧
      performAll cs (fun _ => some 0) "age" = some 3 ∧
      (performNative D fun _ => some 0).map (fun σ => σ "age") = some (some 2) ∧
      ¬ ∀ σ (D' : Record), D'.Perm D → performNative D' σ = some (performAll cs σ) := by
  intro e m u cs D
  have hsource : performAll cs (fun _ => some 0) "age" = some 3 := by decide
  have hnative : (performNative D fun _ => some 0).map (fun σ => σ "age") = some (some 2) := by
    decide
  refine ⟨rfl, rfl, hsource, hnative, fun hsame => ?_⟩
  rw [hsame _ D (.refl D), Option.map_some, hsource] at hnative
  cases hnative

end Mapper

end Docstore
