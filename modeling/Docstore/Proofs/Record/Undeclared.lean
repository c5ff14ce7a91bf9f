import Docstore.Proofs.Entity.Declared
import Docstore.Proofs.Query.Scripts
import Docstore.Proofs.Record.Agreeing
import Docstore.Proofs.Record.Merging
import Docstore.Proofs.Record.NormalForm

/-!
# Names that are not declared

A merge adds names to a record that no declaration mentions. Nothing that goes by the declaration
can tell.

* `Field.Widened` : a stored value that holds more names than another one, none of them declared;
* `Field.Widened.merge` : merging with an old record widens the new one;
* `Field.Widened.agrees`, `Field.Widened.sameAlong` : a widened value agrees with what it was, and
  is like it along every declared path;
* `Entity.decode_and_scripts_ignore_undeclared` : neither decoding nor the scripts of queries see
  what is not declared.
-/

namespace Docstore

namespace Field

/-- The second value is the first one with more names in its documents, none of them declared.
Declared names that are no objects keep their values. -/
inductive Widened : Field → Bson → Bson → Prop
  | same (f : Field) (b : Bson) : Widened f b b
  | object {members : Members} {r r' : Record}
      (names : ∀ name f, members.get? name = some f → (r'.get? name = none ↔ r.get? name = none))
      (below : ∀ name f b b', members.get? name = some f → Fields.get? name r = some b →
        Fields.get? name r' = some b' → Widened f b b') :
      Widened (.object members) (.document r) (.document r')

namespace Widened

variable {f g : Field} {b b' : Bson} {members : Members} {r r' : Record} {name : String}

/-- The declared names of widened documents. -/
theorem member (h : Widened (.object members) (.document r) (.document r'))
    (hf : members.get? name = some f) :
    (r'.get? name = none ↔ r.get? name = none) ∧
      ∀ b b', Fields.get? name r = some b → Fields.get? name r' = some b' → Widened f b b' := by
  cases h with
  | same =>
    refine ⟨Iff.rfl, fun b b' hb hb' => ?_⟩
    obtain rfl := Option.some.inj (hb.symm.trans hb')
    exact .same f b
  | object names below => exact ⟨names name f hf, fun b b' => below name f b b' hf⟩

/-- Adding a name that is not declared, or a value of a declared one that is widened itself. -/
theorem insert (h : Widened (.object members) (.document r) (.document r')) {value : Bson}
    (hvalue : ∀ f, members.get? name = some f →
      ∃ b, Fields.get? name r = some b ∧ Widened f b value) :
    Widened (.object members) (.document r) (.document (r'.insert name value)) := by
  refine .object (fun key g hg => ?_) fun key g b b' hg hb hb' => ?_
  · by_cases hkey : name = key
    · subst hkey
      obtain ⟨b, hb, -⟩ := hvalue g hg
      simp [Fields.get?_insert_self, hb]
    · rw [Fields.get?_insert_of_ne hkey]
      exact (h.member hg).1
  · by_cases hkey : name = key
    · subst hkey
      obtain ⟨c, hc, hwidened⟩ := hvalue g hg
      rw [Fields.get?_insert_self] at hb'
      obtain rfl := Option.some.inj hb'
      obtain rfl := Option.some.inj (hb.symm.trans hc)
      exact hwidened
    · rw [Fields.get?_insert_of_ne hkey] at hb'
      exact (h.member hg).2 b b' hb hb'

theorem mergeInvariant : Members.MergeInvariant fun r members r' =>
    Widened (.object members) (.document r) (.document r') where
  undeclared := by
    intro r declared r' name h hname value
    refine h.insert fun f hf => ?_
    rw [hname] at hf
    cases hf
  declared := by
    intro r declared members r' nested name h hname hnested
    obtain ⟨hnone, hbelow⟩ := h.member hname
    -- What stands under the name now is what stood there, widened.
    obtain ⟨b, hb⟩ : ∃ b, Fields.get? name r = some b := by
      rw [← Option.ne_none_iff_exists', ne_eq, ← hnone, hnested]
      exact Option.some_ne_none _
    obtain ⟨old, rfl⟩ : ∃ old, b = .document old := by
      cases hbelow b _ hb hnested with
      | same => exact ⟨nested, rfl⟩
      | object => exact ⟨_, rfl⟩
    refine ⟨old, hbelow _ _ hb hnested, fun merged hmerged => h.insert fun f hf => ?_⟩
    obtain rfl := Option.some.inj (hname.symm.trans hf)
    exact ⟨_, hb, hmerged⟩

/-- Merging with an old record widens the new one. -/
theorem merge (members : Members) (old new : Record) :
    Widened (.object members) (.document new) (.document (Members.merge members old new)) :=
  mergeInvariant.merge old (.same _ _)

theorem isNull_iff (h : Widened f b b') : b' = .null ↔ b = .null := by
  cases h with
  | same => exact Iff.rfl
  | object => exact ⟨nofun, nofun⟩

/-- A widened value agrees with what it was. -/
theorem agrees (h : Widened f b b') : Agrees f b b' := by
  induction h with
  | same f b => exact .same f b
  | @object members r r' names below ih =>
    refine .object (fun name f hf _ => ?_) fun name f b b' hf _ => ih name f b b' hf
    refine or_congr (names name f hf) ?_
    cases hb : Fields.get? name r with
    | none => simp [(names name f hf).2 hb]
    | some b =>
      cases hb' : Fields.get? name r' with
      | none =>
        rw [(names name f hf).1 hb'] at hb
        cases hb
      | some b' => simpa using (below name f b b' hf hb hb').isNull_iff

/-- Along a declared path, and at the elements below it, the relaxed form of a widened value is
like that of what it was. -/
theorem sameAlong {p : Path} (h : Widened f b b') (hp : f.follow? p = some g) :
    Json.SameAlong (p.labels ++ [.any]) b.toJson b'.toJson := by
  induction p generalizing f b b' with
  | nil =>
    cases h with
    | same => exact .refl _ _
    | object =>
      rw [Bson.toJson_document, Bson.toJson_document]
      exact .of_alike (.object _ _) (by simp)
  | cons s rest ih =>
    obtain ⟨below, hstep, hrest⟩ := Option.bind_eq_some_iff.1 hp
    cases h with
    | same => exact .refl _ _
    | @object members r r' names below =>
      cases s with
      | name key =>
        have hf : members.get? key = some _ := hstep
        rw [Bson.toJson_document, Bson.toJson_document]
        refine ⟨.object _ _, ?_⟩
        simp only [Json.get?, Fields.get?_map]
        cases hb : Fields.get? key r with
        | none =>
          rw [(names key _ hf).2 hb]
          exact .refl _ _
        | some b =>
          cases hb' : Fields.get? key r' with
          | none =>
            rw [(names key _ hf).1 hb'] at hb
            cases hb
          | some b' => exact ih (below key _ b b' hf hb hb') hrest
      | index i => cases hstep
      | any => cases hstep

end Widened

end Field

namespace Entity

variable {e : Entity}

/-- Records that agree on what is declared decode to the same document, or fail for the same
reason. -/
theorem decode_congr (he : e.Distinct) {r r' : Record}
    (h : (Field.object e.members).Agrees (.document r) (.document r')) :
    e.decode r' = e.decode r := by
  have hdecode := h.decodeMember_eq he
  rw [decodeMember_document, decodeMember_document] at hdecode
  cases hr : e.decode r <;> cases hr' : e.decode r' <;> simp_all [Except.map]

/-- Fields that are not declared are invisible. Records that agree on what is declared decode
alike, whatever else they hold; and what a replacement takes over from an old record changes
neither the document that is read nor the answer of any script of a query. -/
theorem decode_and_scripts_ignore_undeclared (he : e.Distinct) :
    (∀ r r' : Record, (Field.object e.members).Agrees (.document r) (.document r') →
      e.decode r' = e.decode r) ∧
    ∀ (m : Mapper) (old new : Record), e.decode (m.preserve e old new) = e.decode new ∧
      ∀ (q : Query) (s : Script), q.script e = .ok s →
        s.runRecord (m.preserve e old new) = s.runRecord new := by
  refine ⟨fun r r' => decode_congr he, fun m old new => ?_⟩
  have hwidened : (Field.object e.members).Widened (.document new)
      (.document (m.preserve e old new)) := by
    rw [Mapper.preserve]
    split
    · exact .merge e.members old new
    · exact .same _ _
  refine ⟨decode_congr he hwidened.agrees, fun q s hs => ?_⟩
  refine Query.run_eq_of_sameAlong hs fun p c _ hc => hwidened.sameAlong (g := c.node.asField) ?_
  rw [← resolve?_asField, hc]
  rfl

/-- A title and a truth value are compared, in a record that takes over names at both depths. -/
theorem decode_and_scripts_ignore_undeclared_note :
    let e : Entity := ⟨"note", [("title", .scalar .string),
      ("meta", .object [("open", .scalar .boolean)]), ("owner", .reference "user")]⟩
    let m : Mapper := { entities := [] }
    let old : Record := [("seen", .bool true), ("meta", .document [("hits", .int64 3)]),
      ("title", .null)]
    let new : Record := [("meta", .document [("open", .bool true)]), ("owner", .string "Ann")]
    let r : Record := [("title", .null), ("meta", .document [("x", .null), ("open", .bool true)])]
    let q : Query := .compareFields [.name "title"] .neq [.name "meta", .name "open"]
    e.Distinct ∧ (Field.object e.members).Agrees (.document new) (.document r) ∧
      e.decode r = e.decode new ∧
      m.preserve e old new = [("meta", .document [("open", .bool true), ("hits", .int64 3)]),
        ("owner", .string "Ann"), ("seen", .bool true)] ∧
      e.decode (m.preserve e old new) = e.decode new ∧
      ∃ s, q.script e = .ok s ∧ s.runRecord (m.preserve e old new) = s.runRecord new := by
  intro e m old new r q
  have he : e.Distinct := by
    simp [e, Entity.Distinct, Fields.Distinct, Fields.keys, Field.MembersDistinct,
      Field.DistinctNames]
  have hmeta : (Field.object [("open", .scalar .boolean)]).Agrees
      (.document [("open", .bool true)]) (.document [("x", .null), ("open", .bool true)]) := by
    refine .object (fun name f hf _ => ?_) fun name f b b' hf _ hb hb' => ?_
    all_goals
      obtain ⟨rfl, rfl⟩ : name = "open" ∧ f = .scalar .boolean := by
        simpa using Fields.mem_of_get?_eq_some hf
    · simp [Field.Lacks, Fields.get?]
    · obtain rfl : .bool true = b := Option.some.inj hb
      obtain rfl : .bool true = b' := Option.some.inj hb'
      exact .same _ _
  have hagrees : (Field.object e.members).Agrees (.document new) (.document r) := by
    refine .object (fun name f hf hstored => ?_) fun name f b b' hf hstored hb hb' => ?_
    all_goals
      have hmem := Fields.mem_of_get?_eq_some hf
      simp only [e, List.mem_cons, Prod.mk.injEq, List.not_mem_nil, or_false] at hmem
      rcases hmem with ⟨rfl, rfl⟩ | ⟨rfl, rfl⟩ | ⟨rfl, rfl⟩
    · simp [Field.Lacks, Fields.get?, new, r]
    · simp [Field.Lacks, Fields.get?, new, r]
    · exact absurd rfl (hstored "user")
    · cases hb
    · obtain rfl := Option.some.inj hb
      obtain rfl := Option.some.inj hb'
      exact hmeta
    · exact absurd rfl (hstored "user")
  obtain ⟨hdecode, hmerge⟩ := decode_and_scripts_ignore_undeclared he
  exact ⟨he, hagrees, hdecode new r hagrees, rfl, (hmerge m old new).1, _, rfl,
    (hmerge m old new).2 q _ rfl⟩

end Entity

end Docstore
