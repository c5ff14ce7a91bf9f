import Docstore.Proofs.Entity.Names
import Docstore.Proofs.Record.Merging

/-!
# What a merge carries over, and what it leaves alone

A record takes over from the one before it what no declaration mentions. All else in it stays, but
that objects which are declared take over in the same way.

* `Members.Carries` : a merged record beside the new and the old one;
* `Members.carries_merge` : merges are such;
* `Members.follow?_merge` : names lead into a merged record to the merge of what they lead to;
* `Members.merge_again` : merging with the same record again changes nothing;
* `Mapper.preserve_carries` : all of this for the records of an entity, at every depth.
-/

namespace Docstore

theorem Bson.FieldsWellFormed.of_mem {r : Record} (h : FieldsWellFormed r) {name : String}
    {b : Bson} (hmem : (name, b) ∈ r) : b.WellFormed := by
  induction r with
  | nil => cases hmem
  | cons field rest ih =>
    rcases List.mem_cons.1 hmem with rfl | hmem
    · exact h.1
    · exact ih h.2 hmem

/-- Documents in a well formed one are well formed. -/
theorem Bson.WellFormed.of_get? {r : Record} (h : (Bson.document r).WellFormed) {name : String}
    {b : Bson} (hb : r.get? name = some b) : b.WellFormed :=
  h.2.of_mem (Fields.mem_of_get?_eq_some hb)

/-- Names lead to an object from objects alone. -/
theorem Field.exists_object_of_follow? {f : Field} {members : Members} {names : List String}
    (h : f.follow? (Path.ofNames names) = some (.object members)) : ∃ ms, f = .object ms := by
  rcases names with _ | ⟨name, rest⟩
  · exact ⟨members, Option.some.inj h⟩
  · cases f with
    | object ms => exact ⟨ms, rfl⟩
    | _ => cases h

theorem Bson.exists_document_of_follow? {b : Bson} {names : List String} {r : Record}
    (h : Bson.follow? (Path.ofNames names) b = some (.document r)) : ∃ r', b = .document r' := by
  rcases names with _ | ⟨name, rest⟩
  · exact ⟨r, Option.some.inj h⟩
  · cases b with
    | document r' => exact ⟨r', rfl⟩
    | _ => cases h

/-- A value stays unless it is a document, it is declared as an object and the old one is a
document too. -/
theorem Field.mergeValue_eq_self {f : Field} {o : Option Bson} {b : Bson}
    (h : ¬ ∃ members old new, f = .object members ∧ o = some (.document old) ∧ b = .document new) :
    f.mergeValue o b = b := by
  unfold mergeValue
  split
  · exact absurd ⟨_, _, _, rfl, rfl, rfl⟩ h
  · rfl

namespace Members

variable {declared : Members} {old new r : Record}

/-! ### One scope -/

/-- The record `merged` is the new one with what the old one has beyond the declaration. -/
structure Carries (declared : Members) (old new merged : Record) : Prop where
  /-- The new names stand in their order, and behind them, in theirs, the old ones that are neither
  declared nor new. -/
  keys : merged.keys =
    new.keys ++ old.keys.filter fun name => declared.get? name = none ∧ name ∉ new.keys
  /-- What is taken over has its old value. -/
  carried : ∀ name, declared.get? name = none → name ∉ new.keys →
    merged.get? name = old.get? name
  /-- A declared object that is a document on both sides is merged in its own scope. -/
  nested : ∀ name members o n, declared.get? name = some (.object members) →
    old.get? name = some (.document o) → new.get? name = some (.document n) →
      merged.get? name = some (.document (merge members o n))
  /-- Everything else that is new keeps its value. -/
  kept : ∀ name b, new.get? name = some b →
    ¬ (∃ members o n, declared.get? name = some (.object members) ∧
      old.get? name = some (.document o) ∧ b = .document n) → merged.get? name = some b

theorem carries_merge (hold : old.Distinct) (declared : Members) (new : Record) :
    declared.Carries old new (merge declared old new) where
  keys := keys_merge hold declared new
  carried name hname hnew := by
    rw [get?_merge hold, hname, Fields.get?_eq_none_iff.2 hnew]
    rfl
  nested name members o n hname ho hn := by
    rw [get?_merge hold, hname, ho, hn]
    rfl
  kept name b hb hother := by
    rw [get?_merge hold, hb]
    cases hname : Fields.get? name declared with
    | none => rfl
    | some f =>
      refine congrArg some (Field.mergeValue_eq_self ?_)
      rintro ⟨members, o, n, rfl, ho, hn⟩
      exact hother ⟨members, o, n, hname, ho, hn⟩

/-- Nothing is taken over when every undeclared name is there already, and nothing changes when no
declared value does. -/
theorem merge_eq_self (hold : old.Distinct) (hr : r.Distinct)
    (hthere : ∀ name, declared.get? name = none → name ∈ old.keys → name ∈ r.keys)
    (hsame : ∀ name f b, declared.get? name = some f → r.get? name = some b →
      f.mergeValue (old.get? name) b = b) : merge declared old r = r := by
  have hnone : (old.keys.filter fun name =>
      decide (declared.get? name = none ∧ name ∉ r.keys)) = [] := by
    refine List.filter_eq_nil_iff.2 fun name hmem => ?_
    rw [decide_eq_true_eq]
    exact fun ⟨hname, hfresh⟩ => hfresh (hthere name hname hmem)
  refine Fields.ext_keys (distinct_merge hr old) ?_ fun name => ?_
  · rw [keys_merge hold, hnone, List.append_nil]
  · rw [get?_merge hold]
    cases hb : r.get? name with
    | none =>
      cases hname : Fields.get? name declared with
      | none =>
        have hfresh : name ∉ old.keys := fun hmem =>
          Fields.get?_eq_none_iff.1 hb (hthere name hname hmem)
        rw [Option.elim_none, Fields.get?_eq_none_iff.2 hfresh]
        rfl
      | some f => rfl
    | some b =>
      cases hname : Fields.get? name declared with
      | none => rfl
      | some f => exact congrArg some (hsame name f b hname hb)

/-! ### All scopes -/

/-- Merging with the same record again changes nothing. -/
theorem merge_again (declared : Members) {old new : Record} (hold : (Bson.document old).WellFormed)
    (hnew : (Bson.document new).WellFormed) :
    merge declared old (merge declared old new) = merge declared old new := by
  refine merge_eq_self hold.1 (distinct_merge hnew.1 old) (fun name hname hmem => ?_) ?_
  · rw [keys_merge hold.1, List.mem_append, List.mem_filter, decide_eq_true_eq]
    by_cases hfresh : name ∈ new.keys
    · exact .inl hfresh
    · exact .inr ⟨hmem, hname, hfresh⟩
  · intro name f b hf hb
    rw [get?_merge hold.1, hf] at hb
    obtain ⟨c, hc, rfl⟩ := Option.map_eq_some_iff.1 hb
    by_cases hdocs : ∃ members o n, f = .object members ∧ old.get? name = some (.document o) ∧
        c = .document n
    · -- Two documents are merged, of which the old one is smaller than the record it is in.
      obtain ⟨members, o, n, rfl, ho, rfl⟩ := hdocs
      rw [ho]
      exact congrArg Bson.document (merge_again members (hold.of_get? ho) (hnew.of_get? hc))
    · rw [Field.mergeValue_eq_self hdocs, Field.mergeValue_eq_self hdocs]
termination_by sizeOf old
decreasing_by
  have hsize := List.sizeOf_lt_of_mem (Fields.mem_of_get?_eq_some ho)
  simp only [Prod.mk.sizeOf_spec, Bson.document.sizeOf_spec] at hsize
  omega

/-- Names that lead to a declared object, and to a document in both records, lead in the merged
record to the merge of these documents. -/
theorem follow?_merge {names : List String} {declared members : Members} {old new o n : Record}
    (hold : (Bson.document old).WellFormed)
    (hf : (Field.object declared).follow? (Path.ofNames names) = some (.object members))
    (ho : Bson.follow? (Path.ofNames names) (.document old) = some (.document o))
    (hn : Bson.follow? (Path.ofNames names) (.document new) = some (.document n)) :
    o.Distinct ∧ Bson.follow? (Path.ofNames names) (.document (merge declared old new)) =
      some (.document (merge members o n)) := by
  induction names generalizing declared old new with
  | nil =>
    obtain rfl : declared = members := Field.object.inj (Option.some.inj hf)
    obtain rfl : old = o := Bson.document.inj (Option.some.inj ho)
    obtain rfl : new = n := Bson.document.inj (Option.some.inj hn)
    exact ⟨hold.1, rfl⟩
  | cons name rest ih =>
    obtain ⟨f, hname, hf⟩ := Option.bind_eq_some_iff.1 hf
    obtain ⟨b, hb, ho⟩ := Option.bind_eq_some_iff.1 ho
    obtain ⟨c, hc, hn⟩ := Option.bind_eq_some_iff.1 hn
    obtain ⟨nested, rfl⟩ := Field.exists_object_of_follow? hf
    obtain ⟨old', rfl⟩ := Bson.exists_document_of_follow? ho
    obtain ⟨new', rfl⟩ := Bson.exists_document_of_follow? hn
    obtain ⟨hdistinct, hbelow⟩ := ih (hold.of_get? hb) hf ho hn
    refine ⟨hdistinct, Option.bind_eq_some_iff.2 ⟨_, ?_, hbelow⟩⟩
    exact (carries_merge hold.1 declared new).nested name nested old' new' hname hb hc

end Members

/-- A record keeps what is new and takes over what is old and undeclared, in the scope of the entity
and of every declared object where both records have a document. Arrays, simple values and
references stay as they are. Doing so again changes nothing. -/
theorem Mapper.preserve_carries {m : Mapper} (hpolicy : m.policy = .keep) (e : Entity)
    {old new : Record} (hold : (Bson.document old).WellFormed)
    (hnew : (Bson.document new).WellFormed) :
    (∀ (names : List String) (members : Members) (o n : Record),
      (Field.object e.members).follow? (Path.ofNames names) = some (.object members) →
        Bson.follow? (Path.ofNames names) (.document old) = some (.document o) →
          Bson.follow? (Path.ofNames names) (.document new) = some (.document n) →
            ∃ r, Bson.follow? (Path.ofNames names) (.document (m.preserve e old new)) =
                some (.document r) ∧ r = Members.merge members o n ∧ members.Carries o n r) ∧
    m.preserve e old (m.preserve e old new) = m.preserve e old new := by
  have hmerge : ∀ r, m.preserve e old r = Members.merge e.members old r := fun r => by
    rw [preserve, hpolicy]
  rw [hmerge, hmerge]
  refine ⟨fun names members o n hf ho hn => ?_, Members.merge_again _ hold hnew⟩
  obtain ⟨hdistinct, hfollow⟩ := Members.follow?_merge hold hf ho hn
  exact ⟨_, hfollow, rfl, Members.carries_merge hdistinct members n⟩

/-- A note with new tags and a new mark, which is not declared. Another such name is taken over at
the end, and so is one inside the object; the reference is not. -/
theorem Mapper.preserve_carries_note :
    let e : Entity := ⟨"note", [("tags", .scalarArray .string), ("author", .reference "user"),
      ("meta", .object [("size", .scalar .integer)])]⟩
    let m : Mapper := { entities := [("note", e)] }
    let old : Record := [("mark", .int32 1), ("tags", .array [.string "a", .string "b"]),
      ("seen", .bool true), ("author", .string "Ann"),
      ("meta", .document [("hits", .int32 3), ("size", .int64 1)])]
    let new : Record := [("meta", .document [("size", .int64 2)]), ("tags", .array [.string "c"]),
      ("mark", .int32 2)]
    (Bson.document old).WellFormed ∧ (Bson.document new).WellFormed ∧
      Fields.keys (m.preserve e old new) = ["meta", "tags", "mark", "seen"] ∧
      (∃ r : Record,
        Bson.follow? [.name "meta"] (.document (m.preserve e old new)) = some (.document r) ∧
        r.keys = ["size", "hits"] ∧ r.get? "hits" = some (.int32 3) ∧
        r.get? "size" = some (.int64 2)) ∧
      m.preserve e old (m.preserve e old new) = m.preserve e old new := by
  intro e m old new
  have hold : (Bson.document old).WellFormed := by
    simp [old, Bson.WellFormed, Bson.FieldsWellFormed, Bson.AllWellFormed, Fields.Distinct,
      Fields.keys]
  have hnew : (Bson.document new).WellFormed := by
    simp [new, Bson.WellFormed, Bson.FieldsWellFormed, Bson.AllWellFormed, Fields.Distinct,
      Fields.keys]
  obtain ⟨hdepth, hagain⟩ := Mapper.preserve_carries (m := m) rfl e hold hnew
  obtain ⟨top, htop, -, hnames⟩ := hdepth [] _ _ _ rfl rfl rfl
  obtain rfl := Bson.document.inj (Option.some.inj htop)
  obtain ⟨r, hr, -, hcarries⟩ := hdepth ["meta"] _ _ _ rfl rfl rfl
  refine ⟨hold, hnew, hnames.keys.trans (by decide),
    ⟨r, hr, hcarries.keys.trans (by decide), ?_, ?_⟩, hagain⟩
  · rw [hcarries.carried "hits" rfl (by decide)]
    rfl
  · refine hcarries.kept "size" _ rfl ?_
    rintro ⟨members, o, n, -, -, hsize⟩
    cases hsize

end Docstore
