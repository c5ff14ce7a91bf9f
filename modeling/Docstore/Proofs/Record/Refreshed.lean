import Docstore.Proofs.Record.Agreeing

/-!
# Records saved again

* `Bson.withoutNulls` : a stored value without the nulls of declared names;
* `Bson.Same` : equality up to the order of names in documents;
* `Field.Refreshed` : how a record that was loaded and saved again relates to what it was;
* `Field.Refreshed.agrees`, `Field.Refreshed.same_withoutNulls`,
  `Field.Refreshed.follow?_undeclared` : it agrees with what it was, is the same without nulls, and
  holds what is not declared unchanged.
-/

namespace Docstore

/-! ### Values without explicit nulls -/

namespace Bson

/-- The value is null. -/
def isNull : Bson → Bool
  | .null => true
  | _ => false

mutual

/-- A stored value of a field without the declared names that hold null, at every depth. -/
def withoutNulls : Field → Bson → Bson
  | .object members, .document r => .document (fieldsWithoutNulls members r)
  | .objectArray members, .array items => .array (itemsWithoutNulls members items)
  | _, b => b

/-- The fields of a document without the declared names that hold null. -/
def fieldsWithoutNulls (declared : Members) : List (String × Bson) → Record
  | [] => []
  | (name, value) :: rest =>
    match declared.get? name with
    | none => (name, value) :: fieldsWithoutNulls declared rest
    | some f =>
      if value.isNull then fieldsWithoutNulls declared rest
      else (name, withoutNulls f value) :: fieldsWithoutNulls declared rest

/-- The elements of an array of objects without the declared names that hold null. -/
def itemsWithoutNulls (declared : Members) : List Bson → List Bson
  | [] => []
  | item :: rest => withoutNulls (.object declared) item :: itemsWithoutNulls declared rest

end

theorem itemsWithoutNulls_eq_map (declared : Members) (items : List Bson) :
    itemsWithoutNulls declared items = items.map (withoutNulls (.object declared)) := by
  induction items with
  | nil => rfl
  | cons item rest ih => rw [itemsWithoutNulls, ih, List.map_cons]

theorem isNull_eq_false {b : Bson} (h : b ≠ .null) : b.isNull = false := by
  cases b <;> first | rfl | exact absurd rfl h

theorem keys_fieldsWithoutNulls_sublist (declared : Members) (r : Record) :
    (Fields.keys (fieldsWithoutNulls declared r)).Sublist r.keys := by
  induction r with
  | nil => exact .slnil
  | cons pair rest ih =>
    obtain ⟨name, value⟩ := pair
    rw [fieldsWithoutNulls]
    split
    · exact ih.cons_cons name
    · split
      · exact ih.cons name
      · exact ih.cons_cons name

/-- Names stand for what they stood for, but null under a declared name is gone. -/
theorem get?_fieldsWithoutNulls {r : Record} (hr : r.Distinct) (declared : Members)
    (name : String) :
    Fields.get? name (fieldsWithoutNulls declared r) =
      (declared.get? name).elim (r.get? name) fun f =>
        (r.get? name).bind fun b => if b.isNull then none else some (withoutNulls f b) := by
  induction r with
  | nil => cases hdeclared : Fields.get? name declared <;> rfl
  | cons pair rest ih =>
    obtain ⟨key, value⟩ := pair
    obtain ⟨hfresh, hrest⟩ := List.nodup_cons.1 hr
    rw [fieldsWithoutNulls]
    by_cases hkey : key = name
    · subst hkey
      rw [Fields.get?_cons_self]
      cases hdeclared : Fields.get? key declared with
      | none => exact Fields.get?_cons_self _ _ _
      | some f =>
        by_cases hnull : value.isNull = true
        · -- The name does not come again behind the null.
          have hgone : key ∉ Fields.keys (fieldsWithoutNulls declared rest) := fun hmem =>
            hfresh ((keys_fieldsWithoutNulls_sublist declared rest).subset hmem)
          simpa [hnull] using Fields.get?_eq_none_iff.2 hgone
        · simp [hnull, Fields.get?_cons_self]
    · rw [Fields.get?_cons_of_ne hkey, ← ih hrest]
      split
      · exact Fields.get?_cons_of_ne hkey _ _
      · split
        · rfl
        · exact Fields.get?_cons_of_ne hkey _ _

/-! ### Equality up to order -/

/-- Stored values are the same up to the order of the names of documents. -/
inductive Same : Bson → Bson → Prop
  | refl (b : Bson) : Same b b
  | array {items items' : List Bson} (length : items.length = items'.length)
      (below : ∀ (i : Nat) b b', items[i]? = some b → items'[i]? = some b' → Same b b') :
      Same (.array items) (.array items')
  | document {r r' : Record} (distinct : r.Distinct) (distinct' : r'.Distinct)
      (names : ∀ name, r.get? name = none ↔ r'.get? name = none)
      (below : ∀ name b b', Fields.get? name r = some b → Fields.get? name r' = some b' →
        Same b b') : Same (.document r) (.document r')

end Bson

/-! ### Refreshed values -/

namespace Field

/-- How a stored value of a field relates to what it is after it was loaded and saved again:
undeclared names are as they were, declared ones may turn from missing to null and back, and
all this also holds inside objects and the elements of arrays. -/
inductive Refreshed : Field → Bson → Bson → Prop
  | same (f : Field) (b : Bson) : Refreshed f b b
  | object {members : Members} {r r' : Record} (distinct : r.Distinct) (distinct' : r'.Distinct)
      (undeclared : ∀ name, members.get? name = none → r'.get? name = r.get? name)
      (lacks : ∀ name f, members.get? name = some f → (Lacks r' name ↔ Lacks r name))
      (below : ∀ name f b b', members.get? name = some f → Fields.get? name r = some b →
        Fields.get? name r' = some b' → Refreshed f b b') :
      Refreshed (.object members) (.document r) (.document r')
  | objectArray {members : Members} {items items' : List Bson}
      (length : items'.length = items.length)
      (below : ∀ (i : Nat) b b', items[i]? = some b → items'[i]? = some b' →
        Refreshed (.object members) b b') :
      Refreshed (.objectArray members) (.array items) (.array items')

namespace Refreshed

variable {f : Field} {b b' : Bson}

theorem isNull_iff (h : Refreshed f b b') : b' = .null ↔ b = .null := by
  cases h with
  | same => exact Iff.rfl
  | _ => exact ⟨nofun, nofun⟩

/-- What was saved again agrees with what it was. -/
theorem agrees (h : Refreshed f b b') : Agrees f b b' := by
  induction h with
  | same f b => exact .same f b
  | object distinct distinct' undeclared lacks below ih =>
    exact .object (fun name f hf _ => lacks name f hf) fun name f b b' hf _ => ih name f b b' hf
  | objectArray length below ih => exact .objectArray length ih

/-- What was saved again decodes to the same document. -/
theorem decodeMember_eq (h : Refreshed f b b') (hd : f.DistinctNames) {o : Option Json}
    (ho : f.decodeMember (some b) = .ok o) : f.decodeMember (some b') = .ok o :=
  (h.agrees.decodeMember_eq hd).trans ho

/-- A declared name is missing without nulls when it is missing or null. -/
theorem get?_fieldsWithoutNulls_eq_none {members : Members} {r : Record} (hr : r.Distinct)
    {name : String} (hf : members.get? name = some f) :
    Fields.get? name (Bson.fieldsWithoutNulls members r) = none ↔ Lacks r name := by
  rw [Bson.get?_fieldsWithoutNulls hr, hf, Lacks]
  cases hb : Fields.get? name r with
  | none => simp
  | some b =>
    by_cases hnull : b = .null
    · subst hnull
      simp [Bson.isNull]
    · simp [Bson.isNull_eq_false hnull, hnull]

/-- Without nulls, what was saved again is the same up to order. -/
theorem same_withoutNulls (h : Refreshed f b b') :
    Bson.Same (b'.withoutNulls f) (b.withoutNulls f) := by
  induction h with
  | same f b => exact .refl _
  | @object members r r' distinct distinct' undeclared lacks below ih =>
    have hsub := Bson.keys_fieldsWithoutNulls_sublist members
    refine .document ((hsub r').nodup distinct') ((hsub r).nodup distinct) (fun name => ?_)
      fun name c c' hc hc' => ?_
    · cases hf : Fields.get? name members with
      | none =>
        rw [Bson.get?_fieldsWithoutNulls distinct', Bson.get?_fieldsWithoutNulls distinct, hf]
        exact undeclared name hf ▸ Iff.rfl
      | some f =>
        rw [get?_fieldsWithoutNulls_eq_none distinct' hf,
          get?_fieldsWithoutNulls_eq_none distinct hf]
        exact lacks name f hf
    · rw [Bson.get?_fieldsWithoutNulls distinct'] at hc
      rw [Bson.get?_fieldsWithoutNulls distinct] at hc'
      cases hf : Fields.get? name members with
      | none =>
        rw [hf, Option.elim_none] at hc hc'
        rw [undeclared name hf, hc'] at hc
        obtain rfl : c' = c := Option.some.inj hc
        exact .refl _
      | some f =>
        rw [hf, Option.elim_some, Option.bind_eq_some_iff] at hc hc'
        obtain ⟨b', hb', hc⟩ := hc
        obtain ⟨b, hb, hc'⟩ := hc'
        -- Neither value is null, or its name would be gone.
        split at hc
        · cases hc
        · split at hc'
          · cases hc'
          · obtain rfl := Option.some.inj hc
            obtain rfl := Option.some.inj hc'
            exact ih name f b b' hf hb hb'
  | @objectArray members items items' length below ih =>
    rw [Bson.withoutNulls, Bson.withoutNulls, Bson.itemsWithoutNulls_eq_map,
      Bson.itemsWithoutNulls_eq_map]
    refine .array (by simpa using length) fun i c c' hc hc' => ?_
    obtain ⟨b', hb', rfl⟩ : ∃ b', items'[i]? = some b' ∧ _ = c := by simpa using hc
    obtain ⟨b, hb, rfl⟩ : ∃ b, items[i]? = some b ∧ _ = c' := by simpa using hc'
    exact ih i b b' hb hb'

theorem follow?_null {p : Path} {found : Bson} (h : Bson.follow? p .null = some found) :
    p = [] := by
  cases p with
  | nil => rfl
  | cons segment rest => cases segment <;> cases h

/-- What stands at a path that is not declared stays there. -/
theorem follow?_undeclared (h : Refreshed f b b') {p : Path} {found : Bson}
    (hp : f.follow? p = none) (hb : Bson.follow? p b = some found) :
    Bson.follow? p b' = some found := by
  induction h generalizing p with
  | same => exact hb
  | @object members r r' distinct distinct' undeclared lacks below ih =>
    cases p with
    | nil => cases hp
    | cons segment rest =>
      cases segment with
      | name key =>
        obtain ⟨b, hget, hrest⟩ := Option.bind_eq_some_iff.1 hb
        cases hf : Fields.get? key members with
        | none => simpa [Bson.follow?, undeclared key hf] using hb
        | some f =>
          have hbelow : f.follow? rest = none := by simpa [follow?, step?, hf] using hp
          cases hget' : Fields.get? key r' with
          | some b' => simpa [Bson.follow?, hget'] using ih key f b b' hf hget hget' hbelow hrest
          | none =>
            -- The value was null, and nothing stands below null.
            have hnull : b = .null := by
              rcases (lacks key f hf).1 (.inl hget') with hnone | hnull
              · rw [hnone] at hget
                cases hget
              · exact Option.some.inj (hget.symm.trans hnull)
            subst hnull
            rw [follow?_null hrest] at hbelow
            cases hbelow
      | _ => cases hb
  | @objectArray members items items' length below ih =>
    cases p with
    | nil => cases hp
    | cons segment rest =>
      cases segment with
      | index i =>
        obtain ⟨b, hget, hrest⟩ := Option.bind_eq_some_iff.1 hb
        obtain ⟨b', hget'⟩ := getElem?_of_length length hget
        have hbelow : (Field.object members).follow? rest = none := hp
        simpa [Bson.follow?, hget'] using ih i b b' hget hget' hbelow hrest
      | _ => cases hb

end Refreshed

end Field

end Docstore
