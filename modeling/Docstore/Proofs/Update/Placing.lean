import Docstore.Proofs.Fields

/-!
# Values under nested names

* `Nesting` : fields are values themselves, and so are the fields inside them;
* `Nesting.put` : a value with another one under a list of names, one inside the other;
* `Nesting.putAll` : the same for every entry of fields whose names stand for lists of names;
* `Diverge` : neither list of names is a beginning of the other;
* `Nesting.Holds`, `Nesting.Admits` : something stands under names, or can be put there.

What is present keeps its place and takes the new value (`put_put`), and it does not matter when
(`put_comm`). So only the last entry of each name counts, in the place of the first one
(`putAll_ofList`).
-/

namespace Docstore

/-! ### Divergence -/

/-- Neither list of names is a beginning of the other. -/
def Diverge (names others : List String) : Prop := ¬ names <+: others ∧ ¬ others <+: names

theorem diverge_cons_iff {name : String} {rest rest' : List String} :
    Diverge (name :: rest) (name :: rest') ↔ Diverge rest rest' := by
  rw [Diverge, Diverge, List.cons_prefix_cons, List.cons_prefix_cons]
  simp

/-! ### Putting -/

/-- How fields are values themselves. -/
structure Nesting (α : Type) where
  /-- Fields as a value. -/
  wrap : Fields α → α
  /-- The fields that a value is, if it is any. -/
  fields? : α → Option (Fields α)
  fields?_wrap : ∀ fs, fields? (wrap fs) = some fs

namespace Nesting

variable {α : Type} (N : Nesting α)

/-- The fields of a value that may be missing; none when it has none. -/
def fieldsOf (old : Option α) : Fields α := (old.bind N.fields?).getD []

/-- The value with another one under names, one inside the other. Fields that are missing are
made, and what is present keeps its place. -/
def put : (names : List String) → (new : α) → (old : Option α) → α
  | [], new, _ => new
  | name :: rest, new, old =>
    let fs := N.fieldsOf old
    N.wrap (fs.insert name (put rest new (fs.get? name)))

/-- The value after putting every entry under the names that its key stands for, in order. -/
def putAll (way : String → List String) (entries : Fields α) (old : Option α) : Option α :=
  entries.foldl (fun old x => some (N.put (way x.1) x.2 old)) old

/-- Something stands under names, one inside the other. -/
def Holds : (names : List String) → Option α → Prop
  | [], old => old.isSome
  | name :: rest, old => ∃ fs, old.bind N.fields? = some fs ∧ Holds rest (fs.get? name)

/-- Nothing but fields stands above the place under names. -/
def Admits : (names : List String) → Option α → Prop
  | [], _ => True
  | name :: rest, old =>
    ∀ v, old = some v → ∃ fs, N.fields? v = some fs ∧ Admits rest (fs.get? name)

variable {N} {names others rest : List String} {v w : α} {old : Option α}

theorem fieldsOf_wrap (fs : Fields α) : N.fieldsOf (some (N.wrap fs)) = fs := by
  rw [fieldsOf, Option.bind_some, N.fields?_wrap]
  rfl

/-- A later value under the same names replaces an earlier one. -/
theorem put_put (names : List String) (v w : α) (old : Option α) :
    N.put names w (some (N.put names v old)) = N.put names w old := by
  induction names generalizing old with
  | nil => rfl
  | cons name rest ih =>
    rw [put, put, fieldsOf_wrap, Fields.get?_insert_self, ih, Fields.insert_insert, put]

theorem Holds.isSome (h : N.Holds names old) : old.isSome := by
  cases names with
  | nil => exact h
  | cons name rest =>
    obtain ⟨fs, hfs, -⟩ := h
    obtain ⟨v, rfl, -⟩ := Option.bind_eq_some_iff.1 hfs
    rfl

theorem holds_put (names : List String) (v : α) (old : Option α) :
    N.Holds names (some (N.put names v old)) := by
  induction names generalizing old with
  | nil => rfl
  | cons name rest ih =>
    refine ⟨_, N.fields?_wrap _, ?_⟩
    rw [Fields.get?_insert_self]
    exact ih _

/-- Putting a value elsewhere takes nothing away. -/
theorem Holds.put (h : N.Holds names old) (hd : Diverge names others) (w : α) :
    N.Holds names (some (N.put others w old)) := by
  induction names generalizing others old with
  | nil => exact absurd List.nil_prefix hd.1
  | cons name rest ih =>
    cases others with
    | nil => exact absurd List.nil_prefix hd.2
    | cons other rest' =>
      obtain ⟨fs, hfs, h⟩ := h
      refine ⟨_, N.fields?_wrap _, ?_⟩
      rw [fieldsOf, hfs, Option.getD_some]
      by_cases hname : other = name
      · subst hname
        rw [Fields.get?_insert_self]
        exact ih h (diverge_cons_iff.1 hd)
      · rw [Fields.get?_insert_of_ne hname]
        exact h

/-- What is present takes its value in its place, so it does not matter when. -/
theorem put_comm (h : N.Holds names old) (hd : Diverge names others) (v w : α) :
    N.put names v (some (N.put others w old)) = N.put others w (some (N.put names v old)) := by
  induction names generalizing others old with
  | nil => exact absurd List.nil_prefix hd.1
  | cons name rest ih =>
    cases others with
    | nil => exact absurd List.nil_prefix hd.2
    | cons other rest' =>
      obtain ⟨fs, hfs, h⟩ := h
      have hold : N.fieldsOf old = fs := by
        rw [fieldsOf, hfs]
        rfl
      simp only [Nesting.put, fieldsOf_wrap, hold]
      by_cases hname : name = other
      · subst hname
        rw [Fields.get?_insert_self, Fields.get?_insert_self, Fields.insert_insert,
          Fields.insert_insert, ih h (diverge_cons_iff.1 hd)]
      · rw [Fields.get?_insert_of_ne (Ne.symm hname), Fields.get?_insert_of_ne hname,
          Fields.insert_comm hname h.isSome]

theorem admits_none (names : List String) : N.Admits names none := by
  cases names with
  | nil => trivial
  | cons name rest => nofun

/-- Where a value can be put, it still can be after another one was put there or elsewhere. -/
theorem Admits.put (h : N.Admits names old) (hd : names = others ∨ Diverge names others) (w : α) :
    N.Admits names (some (N.put others w old)) := by
  induction names generalizing others old with
  | nil => trivial
  | cons name rest ih =>
    cases others with
    | nil =>
      rcases hd with hd | hd
      · cases hd
      · exact absurd List.nil_prefix hd.2
    | cons other rest' =>
      rintro _ ⟨⟩
      refine ⟨_, N.fields?_wrap _, ?_⟩
      have hbelow : N.Admits rest ((N.fieldsOf old).get? name) := by
        cases old with
        | none => exact admits_none rest
        | some v =>
          obtain ⟨fs, hfs, hrest⟩ := h v rfl
          rw [fieldsOf, Option.bind_some, hfs]
          exact hrest
      by_cases hname : other = name
      · subst hname
        rw [Fields.get?_insert_self]
        refine ih hbelow ?_
        rcases hd with hd | hd
        · exact .inl (List.cons.inj hd).2
        · exact .inr (diverge_cons_iff.1 hd)
      · rw [Fields.get?_insert_of_ne hname]
        exact hbelow

/-! ### Putting entries -/

variable {way : String → List String} {key : String} {entries : Fields α}

theorem putAll_cons (x : String × α) (entries : Fields α) (old : Option α) :
    N.putAll way (x :: entries) old = N.putAll way entries (some (N.put (way x.1) x.2 old)) := rfl

/-- An entry for what is present comes to the same before the others as after them. -/
theorem put_putAll (h : N.Holds (way key) old)
    (hd : ∀ x ∈ entries, Diverge (way key) (way x.1)) (v : α) :
    some (N.put (way key) v (N.putAll way entries old)) =
      N.putAll way entries (some (N.put (way key) v old)) := by
  induction entries generalizing old with
  | nil => rfl
  | cons x rest ih =>
    have hx := hd x List.mem_cons_self
    rw [putAll_cons, putAll_cons, ih (h.put hx x.2) fun y hy => hd y (List.mem_cons_of_mem _ hy),
      put_comm h hx]

/-- Inserting an entry is putting its value in the end. -/
theorem putAll_insert (hentries : entries.Distinct)
    (hd : ∀ x ∈ entries, x.1 ≠ key → Diverge (way key) (way x.1)) (v : α) (old : Option α) :
    N.putAll way (entries.insert key v) old =
      some (N.put (way key) v (N.putAll way entries old)) := by
  induction entries generalizing old with
  | nil => rfl
  | cons x rest ih =>
    obtain ⟨name, w⟩ := x
    obtain ⟨hfresh, hrest⟩ := List.nodup_cons.1 hentries
    have hd' := fun y hy => hd y (List.mem_cons_of_mem _ hy)
    by_cases hname : name = key
    · subst hname
      have hothers : ∀ y ∈ rest, Diverge (way name) (way y.1) := fun y hy =>
        hd' y hy fun e => hfresh (List.mem_map.2 ⟨y, hy, e⟩)
      rw [Fields.insert, if_pos rfl, putAll_cons, putAll_cons,
        put_putAll (holds_put _ _ _) hothers, put_put]
    · rw [Fields.insert, if_neg hname, putAll_cons, putAll_cons, ih hrest hd']

theorem putAll_insertAll {keys : List String} {acc : Fields α}
    (hd : ∀ a ∈ keys, ∀ b ∈ keys, a ≠ b → Diverge (way a) (way b)) (hacc : acc.Distinct)
    (hmem : acc.keys ⊆ keys) (hentries : entries.keys ⊆ keys) (old : Option α) :
    N.putAll way (acc.insertAll entries) old = N.putAll way entries (N.putAll way acc old) := by
  induction entries generalizing acc with
  | nil => rfl
  | cons x rest ih =>
    obtain ⟨key, v⟩ := x
    obtain ⟨hkey, hrest⟩ := List.cons_subset.1 hentries
    have hinsert : (acc.insert key v).keys ⊆ keys := fun name hname =>
      (Fields.mem_keys_insert hname).elim (fun e => e ▸ hkey) fun h => hmem h
    have hothers : ∀ y ∈ acc, y.1 ≠ key → Diverge (way key) (way y.1) := fun y hy hne =>
      hd key hkey y.1 (hmem (List.mem_map_of_mem hy)) (Ne.symm hne)
    calc N.putAll way (acc.insertAll ((key, v) :: rest)) old
        = N.putAll way (Fields.insertAll (acc.insert key v) rest) old := rfl
      _ = N.putAll way rest (N.putAll way (acc.insert key v) old) :=
          ih (Fields.distinct_insert hacc key v) hinsert hrest
      _ = N.putAll way ((key, v) :: rest) (N.putAll way acc old) := by
          rw [putAll_insert hacc hothers, putAll_cons]

/-- Only the last entry of each key counts, in the place of the first one. -/
theorem putAll_ofList (hd : ∀ a ∈ entries.keys, ∀ b ∈ entries.keys, a ≠ b →
    Diverge (way a) (way b)) (old : Option α) :
    N.putAll way (Fields.ofList entries) old = N.putAll way entries old := by
  have hempty : Fields.Distinct ([] : Fields α) := List.nodup_nil
  exact putAll_insertAll hd hempty (List.nil_subset _) (List.Subset.refl _) old

end Nesting

end Docstore
