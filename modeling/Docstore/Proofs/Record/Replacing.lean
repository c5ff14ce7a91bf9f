import Docstore.Proofs.Record.Frame
import Docstore.Proofs.Record.LoadSave

/-!
# Replacing again and again

A replacement takes over from the record before it what its document does not say. What a
replacement in between said is gone afterwards, and what it did not say is still there.

* `Field.mergeValue_object` : an object takes over the fields of the document before it, if there
  was one;
* `Field.Relays` : an object in between hands the fields on;
* `Members.merge_merge`, `Mapper.Stored.mergeValue_mergeValue` : merging past a replacement in
  between is merging without it;
* `Members.filter_merge` : a merge keeps the fields that no declaration mentions;
* `Mapper.replacements_leave_no_trace` : what holds of runs of replacements.
-/

namespace Docstore

/-! ### Values before and after -/

namespace Bson

/-- The fields of a document; none of any other value and where there is no value. -/
def fieldsOf : Option Bson → Record
  | some (.document r) => r
  | _ => []

theorem fieldsOf_eq_nil {o : Option Bson} (h : ¬ ∃ r, o = some (.document r)) :
    fieldsOf o = [] := by
  unfold fieldsOf
  split
  · exact absurd ⟨_, rfl⟩ h
  · rfl

theorem follow?_fieldsOf (o : Option Bson) (key : String) (p : Path) :
    o.bind (follow? (.name key :: p)) = ((fieldsOf o).get? key).bind (follow? p) := by
  rcases o with _ | b
  · rfl
  · cases b <;> rfl

theorem wellFormed_fieldsOf {o : Option Bson} (h : ∀ b ∈ o, b.WellFormed) :
    (Bson.document (fieldsOf o)).WellFormed := by
  rcases o with _ | b
  · exact ⟨List.nodup_nil, trivial⟩
  · cases b with
    | document r => exact h _ rfl
    | _ => exact ⟨List.nodup_nil, trivial⟩

end Bson

namespace Field

open Bson (fieldsOf)

/-- An object takes over the fields of the document before it. -/
theorem mergeValue_object (members : Members) (o : Option Bson) (new : Record) :
    (Field.object members).mergeValue o (.document new) =
      .document (Members.merge members (fieldsOf o) new) := by
  rcases o with _ | b
  · rfl
  · cases b <;> rfl

theorem mergeValue_of_ne_document {f : Field} {o : Option Bson} {b : Bson}
    (h : ∀ r, b ≠ .document r) : f.mergeValue o b = b :=
  mergeValue_eq_self fun ⟨_, _, r, _, _, hb⟩ => h r hb

/-- What a document in between takes over is handed on. Where there is none, there must not have
been one before. -/
theorem fieldsOf_map_mergeValue (members : Members) {before between : Option Bson}
    (h : (∃ r, before = some (.document r)) → ∃ r, between = some (.document r)) :
    fieldsOf (between.map ((Field.object members).mergeValue before)) =
      Members.merge members (fieldsOf before) (fieldsOf between) := by
  by_cases hbetween : ∃ r, between = some (.document r)
  · obtain ⟨r, rfl⟩ := hbetween
    rw [Option.map_some, mergeValue_object]
    rfl
  · have hmap : between.map ((Field.object members).mergeValue before) = between := by
      rcases between with _ | b
      · rfl
      · rw [Option.map_some, mergeValue_of_ne_document fun r e => hbetween ⟨r, congrArg some e⟩]
    have hbefore : ¬ ∃ r, before = some (.document r) := fun hbefore => hbetween (h hbefore)
    rw [hmap, Bson.fieldsOf_eq_nil hbetween, Bson.fieldsOf_eq_nil hbefore]
    rfl

/-- Wherever declared names lead to documents both before and after, they lead to one in
between. -/
def Relays (f : Field) (before between : Option Bson) (after : Bson) : Prop :=
  ∀ names members, f.follow? (Path.ofNames names) = some (.object members) →
    (∃ r, before.bind (Bson.follow? (Path.ofNames names)) = some (.document r)) →
      (∃ r, Bson.follow? (Path.ofNames names) after = some (.document r)) →
        ∃ r, between.bind (Bson.follow? (Path.ofNames names)) = some (.document r)

/-- What holds of an object holds of its members. -/
theorem Relays.member {members : Members} {f : Field} {before between : Option Bson} {r : Record}
    {name : String} {b : Bson} (h : Relays (.object members) before between (.document r))
    (hf : members.get? name = some f) (hb : r.get? name = some b) :
    Relays f ((fieldsOf before).get? name) ((fieldsOf between).get? name) b := by
  intro names nested hfollow hbefore hafter
  have hhere := h (name :: names) nested (by simpa [Path.ofNames, follow?, step?, hf] using hfollow)
  rw [Path.ofNames, List.map_cons, Bson.follow?_fieldsOf, Bson.follow?_fieldsOf] at hhere
  exact hhere hbefore (by simpa [Path.ofNames, Bson.follow?, hb] using hafter)

end Field

/-! ### Merging twice -/

namespace Members

variable {declared : Members}

/-- Merging past a record in between that has none but declared names is merging without it, when
the same holds of the declared values. -/
theorem merge_merge {before between after : Record} (hbefore : before.Distinct)
    (hbetween : between.Distinct) (hafter : after.Distinct)
    (hclosed : ∀ name, declared.get? name = none → between.get? name = none)
    (hbelow : ∀ name f b, declared.get? name = some f → after.get? name = some b →
      f.mergeValue ((between.get? name).map (f.mergeValue (before.get? name))) b =
        f.mergeValue (before.get? name) b) :
    merge declared (merge declared before between) after = merge declared before after := by
  have hmerged : (merge declared before between).Distinct := distinct_merge hbetween before
  refine Fields.ext_keys (distinct_merge hafter _) ?_ fun name => ?_
  · rw [keys_merge hmerged, keys_merge hbefore, keys_merge hbefore, List.filter_append]
    -- The names in between are declared, and no declared name is taken over.
    have hnone : ∀ name ∈ between.keys, declared.get? name ≠ none := fun name hmem hdeclared =>
      Fields.get?_eq_none_iff.1 (hclosed name hdeclared) hmem
    have hfirst : (between.keys.filter fun name =>
        decide (declared.get? name = none ∧ name ∉ after.keys)) = [] := by
      refine List.filter_eq_nil_iff.2 fun name hmem => ?_
      simp [hnone name hmem]
    rw [hfirst, List.nil_append, List.filter_filter]
    refine congrArg _ (List.filter_congr fun name _ => ?_)
    cases hname : Fields.get? name declared with
    | none =>
      have hfresh : name ∉ between.keys := fun hmem => hnone name hmem hname
      simp [hfresh]
    | some f => simp
  · rw [get?_merge hmerged, get?_merge hbefore, get?_merge hbefore]
    cases hf : Fields.get? name declared with
    | none => simp [hclosed name hf]
    | some f =>
      cases hb : Fields.get? name after with
      | none => rfl
      | some b => exact congrArg some (hbelow name f b hf hb)

/-- A merge keeps the fields that no declaration mentions, and nothing but these from before. -/
theorem filter_merge {old new : Record} (hold : old.Distinct) (hnew : new.Distinct)
    (hclosed : ∀ name, declared.get? name = none → new.get? name = none) :
    ((merge declared old new).filter fun field => (declared.get? field.1).isNone) =
      old.filter fun field => (declared.get? field.1).isNone := by
  have hmerged : (merge declared old new).Distinct := distinct_merge hnew old
  have hfresh : ∀ name, declared.get? name = none → name ∉ new.keys := fun name h =>
    Fields.get?_eq_none_iff.1 (hclosed name h)
  refine Fields.ext_keys ?_ ?_ fun name => ?_
  · rw [Fields.Distinct, Fields.keys_filter fun name => (declared.get? name).isNone]
    exact hmerged.filter _
  · rw [Fields.keys_filter fun name => (declared.get? name).isNone,
      Fields.keys_filter fun name => (declared.get? name).isNone, keys_merge hold,
      List.filter_append, List.filter_filter]
    have hfirst : (new.keys.filter fun name => (declared.get? name).isNone) = [] := by
      refine List.filter_eq_nil_iff.2 fun name hmem hnone => ?_
      exact hfresh name (Option.isNone_iff_eq_none.1 hnone) hmem
    rw [hfirst, List.nil_append]
    refine List.filter_congr fun name _ => ?_
    cases hname : Fields.get? name declared with
    | none => simp [hfresh name hname]
    | some f => simp
  · rw [Fields.get?_filter fun name => (declared.get? name).isNone,
      Fields.get?_filter fun name => (declared.get? name).isNone, get?_merge hold]
    cases hf : Fields.get? name declared with
    | none => simp [hclosed name hf]
    | some f => simp

end Members

/-! ### Replacements -/

/-- The fields of a record that the declaration of the entity does not mention. -/
def Entity.undeclared (e : Entity) (r : Record) : Record :=
  r.filter fun field => (e.members.get? field.1).isNone

namespace Mapper

open Bson (fieldsOf)

variable {m : Mapper}

theorem stored_fieldsOf {path : Path} {members : Members} {o : Option Bson}
    (h : ∀ b ∈ o, m.Stored false path (.object members) b) :
    m.Stored false path (.object members) (.document (fieldsOf o)) := by
  have hempty : m.Stored false path (.object members) (.document []) :=
    .object List.nodup_nil (fun _ _ _ => rfl) fun _ _ _ _ hb => by cases hb
  rcases o with _ | b
  · exact hempty
  · cases b with
    | document r => exact h _ rfl
    | _ => exact hempty

/-- What an object in between took over is what the object after it takes over, and nothing else
is. -/
theorem Stored.mergeValue_mergeValue {path : Path} {f : Field} {after : Bson}
    (h : m.Stored false path f after) {before between : Option Bson}
    (hbefore : ∀ b ∈ before, b.WellFormed) (hbetween : ∀ b ∈ between, m.Stored false path f b)
    (hrelays : f.Relays before between after) :
    f.mergeValue (between.map (f.mergeValue before)) after = f.mergeValue before after := by
  generalize hopened : false = opened at h
  induction h generalizing before between with
  | scalar h => rfl
  | null h =>
    have hnull : ∀ r, Bson.null ≠ .document r := nofun
    rw [Field.mergeValue_of_ne_document hnull, Field.mergeValue_of_ne_document hnull]
  | @object opened path members r distinct closed below ih =>
    subst hopened
    obtain ⟨hdistinct, hwellFormed⟩ := Bson.wellFormed_fieldsOf hbefore
    have hstored := stored_fieldsOf hbetween
    have hmerge : Members.merge members (Members.merge members (fieldsOf before)
        (fieldsOf between)) r = Members.merge members (fieldsOf before) r := by
      refine Members.merge_merge hdistinct hstored.distinct distinct
        (fun name hname => hstored.closed rfl hname) fun name f b hf hb => ?_
      exact ih name f b hf hb
        (fun c hc => hwellFormed.of_mem (Fields.mem_of_get?_eq_some hc))
        (fun c hc => hstored.member hf hc) (hrelays.member hf hb) rfl
    -- At the object itself: the document in between is there when it has something to hand on.
    have hhere : (∃ r, before = some (.document r)) → ∃ r, between = some (.document r) := by
      intro hbefore
      simpa [Path.ofNames, Bson.follow?] using hrelays [] members rfl (by simpa
        [Path.ofNames, Bson.follow?] using hbefore) ⟨r, rfl⟩
    rw [Field.mergeValue_object, Field.mergeValue_object,
      Field.fieldsOf_map_mergeValue members hhere, hmerge]
  | scalarArray below => rfl
  | objectArray below => rfl

/-- A document of the entity of a name that can be stored. -/
def Accepts (m : Mapper) (name : String) (d : Json) : Prop :=
  d.WellFormed ∧ m.entityNameOf d = .ok name ∧ ∃ x, m.encode d = .ok x

variable {name : String} {e : Entity} {d d₁ d₂ : Json} {r r₀ : Record}

/-- Replacing is merging with a stored record. -/
theorem Accepts.replace_eq (hpolicy : m.policy = .keep) (he : m.entity name = .ok e)
    (hd : m.Accepts name d) :
    ∃ x, m.Encodes .root (.object e.members) d (.document x) ∧
      m.Stored false .root (.object e.members) (.document x) ∧
        ∀ r, m.replace d r = .ok (Members.merge e.members r x) := by
  obtain ⟨hwell, hname, x, hx⟩ := hd
  simp only [encode, bind_eq_ok_iff] at hx
  obtain ⟨name', hname', e', he', hx⟩ := hx
  obtain rfl := Except.ok.inj (hname.symm.trans hname')
  obtain rfl := Except.ok.inj (he.symm.trans he')
  have hencodes := Entity.encodes_of_encodeAs hx
  exact ⟨x, hencodes, hencodes.stored hwell, fun r =>
    (replace_eq_ok_iff hpolicy).2 ⟨name, e, x, hname, he, hx, rfl⟩⟩

/-- Objects of documents stand where their records hold documents. -/
theorem Encodes.object_iff_document {path p : Path} {f : Field} {v : Json} {b : Bson}
    {members : Members} (h : m.Encodes path f v b) (hp : f.follow? p = some (.object members)) :
    (∃ ms, v.follow? p = some (.object ms)) ↔ ∃ r, Bson.follow? p b = some (.document r) := by
  constructor
  · rintro ⟨ms, hms⟩
    obtain ⟨stored, hstored, hencodes⟩ := h.follow? hp hms
    cases hencodes with
    | object => exact ⟨_, hstored⟩
  · rintro ⟨r, hr⟩
    obtain ⟨found, hfound, hencodes⟩ := h.exists_follow? (Field.reaches_iff.2 ⟨hp, hr⟩)
    cases hencodes with
    | object => exact ⟨_, hfound⟩

/-- A replacement in between leaves no trace, unless it lacks an object that both the record before
it and the document after it have. -/
theorem replace_replace (hpolicy : m.policy = .keep) (he : m.entity name = .ok e)
    (hr₀ : (Bson.document r₀).WellFormed) (hd₁ : m.Accepts name d₁) (hd₂ : m.Accepts name d₂)
    (hobjects : ∀ names members,
      (Field.object e.members).follow? (Path.ofNames names) = some (.object members) →
        (∃ ms, d₂.follow? (Path.ofNames names) = some (.object ms)) →
          (∃ r, Bson.follow? (Path.ofNames names) (.document r₀) = some (.document r)) →
            ∃ ms, d₁.follow? (Path.ofNames names) = some (.object ms)) :
    ∃ r₁ r₂, m.replace d₁ r₀ = .ok r₁ ∧ m.replace d₂ r₀ = .ok r₂ ∧ m.replace d₂ r₁ = .ok r₂ := by
  obtain ⟨x₁, hencodes₁, hstored₁, hreplace₁⟩ := hd₁.replace_eq hpolicy he
  obtain ⟨x₂, hencodes₂, hstored₂, hreplace₂⟩ := hd₂.replace_eq hpolicy he
  refine ⟨_, _, hreplace₁ r₀, hreplace₂ r₀, ?_⟩
  rw [hreplace₂]
  have hrelays : (Field.object e.members).Relays (some (.document r₀)) (some (.document x₁))
      (.document x₂) := by
    intro names members hnames hbefore hafter
    rw [Option.bind_some] at hbefore ⊢
    exact (hencodes₁.object_iff_document hnames).1
      (hobjects names members hnames ((hencodes₂.object_iff_document hnames).2 hafter) hbefore)
  have hbefore : ∀ b ∈ some (Bson.document r₀), b.WellFormed := fun b hb =>
    Option.some.inj hb ▸ hr₀
  have hbetween : ∀ b ∈ some (Bson.document x₁), m.Stored false .root (.object e.members) b :=
    fun b hb => Option.some.inj hb ▸ hstored₁
  have hmerge := hstored₂.mergeValue_mergeValue hbefore hbetween hrelays
  exact congrArg Except.ok (Bson.document.inj hmerge)

/-- A run of replacements keeps the undeclared fields as they are. -/
theorem undeclared_of_replacements (hpolicy : m.policy = .keep) (he : m.entity name = .ok e)
    (hr₀ : r₀.Distinct) {ds : List Json} (hds : ∀ d ∈ ds, m.Accepts name d) :
    ∃ r, ds.foldlM (fun r d => m.replace d r) r₀ = .ok r ∧ e.undeclared r = e.undeclared r₀ := by
  induction ds generalizing r₀ with
  | nil => exact ⟨r₀, rfl, rfl⟩
  | cons d rest ih =>
    obtain ⟨x, -, hstored, hreplace⟩ := (hds d List.mem_cons_self).replace_eq hpolicy he
    obtain ⟨r, hr, hundeclared⟩ := ih (Members.distinct_merge hstored.distinct r₀)
      fun d hd => hds d (List.mem_cons_of_mem _ hd)
    refine ⟨r, ?_, hundeclared.trans ?_⟩
    · rw [List.foldlM_cons, hreplace]
      exact hr
    · exact Members.filter_merge hr₀ hstored.distinct fun name hname => hstored.closed rfl hname

/-- Runs of replacements by documents of one entity. A replacement in between leaves no trace in
the record after it, key order included, unless it lacks an object that both the record before it
and the document after it have; replacing twice with a document is replacing once; and the
undeclared fields of a record survive any number of replacements in their order. -/
theorem replacements_leave_no_trace (hpolicy : m.policy = .keep) (he : m.entity name = .ok e)
    (hr₀ : (Bson.document r₀).WellFormed) :
    (∀ d₁ d₂, m.Accepts name d₁ → m.Accepts name d₂ →
      (∀ names members,
        (Field.object e.members).follow? (Path.ofNames names) = some (.object members) →
          (∃ ms, d₂.follow? (Path.ofNames names) = some (.object ms)) →
            (∃ r, Bson.follow? (Path.ofNames names) (.document r₀) = some (.document r)) →
              ∃ ms, d₁.follow? (Path.ofNames names) = some (.object ms)) →
      ∃ r₁ r₂, m.replace d₁ r₀ = .ok r₁ ∧ m.replace d₂ r₀ = .ok r₂ ∧ m.replace d₂ r₁ = .ok r₂) ∧
    (∀ d, m.Accepts name d → ∃ r, m.replace d r₀ = .ok r ∧ m.replace d r = .ok r) ∧
    ∀ ds : List Json, (∀ d ∈ ds, m.Accepts name d) →
      ∃ r, ds.foldlM (fun r d => m.replace d r) r₀ = .ok r ∧ e.undeclared r = e.undeclared r₀ := by
  refine ⟨fun d₁ d₂ hd₁ hd₂ => replace_replace hpolicy he hr₀ hd₁ hd₂, fun d hd => ?_, fun ds hds =>
    undeclared_of_replacements hpolicy he hr₀.1 hds⟩
  obtain ⟨r, r', hr, hr', hagain⟩ := replace_replace hpolicy he hr₀ hd hd fun _ _ _ h _ => h
  obtain rfl := Except.ok.inj (hr.symm.trans hr')
  exact ⟨r, hr, hagain⟩

/-- Notes with a name that is not declared at both depths are replaced three times. -/
theorem replacements_leave_no_trace_note :
    let e : Entity := ⟨"note", [("objectType", .scalar .string),
      ("meta", .object [("open", .scalar .boolean)])]⟩
    let m : Mapper := { entities := [("note", e)] }
    let r₀ : Record := [("seen", .bool true), ("meta", .document [("hits", .int64 3)])]
    let d₁ : Json := .object [("meta", .object [("open", .bool true)]),
      ("objectType", .string "note")]
    let d₂ : Json := .object [("objectType", .string "note"), ("meta", .object [])]
    let r : Record := [("objectType", .string "note"), ("meta", .document [("hits", .int64 3)]),
      ("seen", .bool true)]
    (Bson.document r₀).WellFormed ∧ m.Accepts "note" d₁ ∧ m.Accepts "note" d₂ ∧
      (∃ r₁ r₂, m.replace d₁ r₀ = .ok r₁ ∧ m.replace d₂ r₀ = .ok r₂ ∧ m.replace d₂ r₁ = .ok r₂) ∧
      m.replace d₂ r₀ = .ok r ∧ m.replace d₂ r = .ok r ∧
      ∃ r', [d₁, d₂, d₁].foldlM (fun r d => m.replace d r) r₀ = .ok r' ∧
        e.undeclared r' = [("seen", .bool true)] := by
  intro e m r₀ d₁ d₂ r
  have hr₀ : (Bson.document r₀).WellFormed := by
    simp [r₀, Bson.WellFormed, Bson.FieldsWellFormed, Fields.Distinct, Fields.keys]
  have hd₁ : m.Accepts "note" d₁ :=
    ⟨by simp [d₁, Json.WellFormed, Json.MembersWellFormed, Fields.Distinct, Fields.keys], rfl, _,
      rfl⟩
  have hd₂ : m.Accepts "note" d₂ :=
    ⟨by simp [d₂, Json.WellFormed, Json.MembersWellFormed, Fields.Distinct, Fields.keys], rfl, _,
      rfl⟩
  -- The first document has an object wherever one is declared.
  have hobjects : ∀ names members,
      (Field.object e.members).follow? (Path.ofNames names) = some (.object members) →
        ∃ ms, d₁.follow? (Path.ofNames names) = some (.object ms) := by
    intro names members h
    rcases names with _ | ⟨name, rest⟩
    · exact ⟨_, rfl⟩
    obtain ⟨f, hf, hrest⟩ := Option.bind_eq_some_iff.1 h
    have hmem := Fields.mem_of_get?_eq_some hf
    simp only [e, List.mem_cons, Prod.mk.injEq, List.not_mem_nil, or_false] at hmem
    rcases hmem with ⟨rfl, rfl⟩ | ⟨rfl, rfl⟩
    · rcases rest with _ | ⟨name, rest⟩ <;> cases hrest
    rcases rest with _ | ⟨name, rest⟩
    · exact ⟨_, rfl⟩
    obtain ⟨f, hf, hrest⟩ := Option.bind_eq_some_iff.1 hrest
    have hmem := Fields.mem_of_get?_eq_some hf
    simp only [List.mem_cons, Prod.mk.injEq, List.not_mem_nil, or_false] at hmem
    obtain ⟨rfl, rfl⟩ := hmem
    rcases rest with _ | ⟨name, rest⟩ <;> cases hrest
  have he : m.entity "note" = .ok e := rfl
  obtain ⟨htrace, hagain, hkept⟩ := replacements_leave_no_trace rfl he hr₀
  obtain ⟨r', hr', hr''⟩ := hagain d₂ hd₂
  obtain rfl : r = r' := Except.ok.inj hr'
  refine ⟨hr₀, hd₁, hd₂, htrace d₁ d₂ hd₁ hd₂ fun names members h _ _ => hobjects names members h,
    rfl, hr'', hkept [d₁, d₂, d₁] fun d hd => ?_⟩
  rcases List.mem_cons.1 hd with rfl | hd
  · exact hd₁
  rcases List.mem_cons.1 hd with rfl | hd
  · exact hd₂
  · obtain rfl := List.mem_singleton.1 hd
    exact hd₁

end Mapper

end Docstore
