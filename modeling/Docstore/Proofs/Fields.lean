import Docstore.Fields

/-!
# Look-ups in fields

* `Fields.get?_eq_some_iff_mem` : among distinct names, what a look-up finds is what is there;
* `Fields.distinct_insert` : insertions keep names distinct;
* `Fields.keys_foldl_insert` : the names of insertions come in order of first use;
* `Fields.ext_keys` : fields are given by their names in order and what stands under each;
* `Fields.keys_ofList`, `Fields.get?_ofList` : the fields of a list have its names in order of first
  use, each with its last value;
* `Fields.insertAll_insertAll` : insertions can be collected before they are made.
-/

namespace Docstore.Fields

variable {α β : Type} {name other : String} {value : α} {fs gs : Fields α}

theorem get?_cons_self (name : String) (value : α) (rest : Fields α) :
    get? name ((name, value) :: rest) = some value := if_pos rfl

theorem get?_cons_of_ne {key : String} (h : key ≠ name) (value : α) (rest : Fields α) :
    get? name ((key, value) :: rest) = rest.get? name := if_neg h

theorem mem_of_get?_eq_some (h : fs.get? name = some value) : (name, value) ∈ fs := by
  induction fs with
  | nil => cases h
  | cons pair rest ih =>
    obtain ⟨key, old⟩ := pair
    by_cases hk : key = name
    · subst hk
      rw [get?_cons_self] at h
      obtain rfl : old = value := Option.some.inj h
      exact List.mem_cons_self
    · rw [get?_cons_of_ne hk] at h
      exact List.mem_cons_of_mem _ (ih h)

/-- Among distinct names a look-up finds every value. -/
theorem get?_eq_some_iff_mem (h : fs.Distinct) :
    fs.get? name = some value ↔ (name, value) ∈ fs := by
  refine ⟨mem_of_get?_eq_some, fun hmem => ?_⟩
  induction fs with
  | nil => cases hmem
  | cons pair rest ih =>
    obtain ⟨key, old⟩ := pair
    obtain ⟨hfresh, hrest⟩ := List.nodup_cons.1 h
    rcases List.mem_cons.1 hmem with heq | hmem
    · obtain ⟨rfl, rfl⟩ := Prod.mk.inj heq
      exact get?_cons_self _ _ _
    · have hk : key ≠ name := fun e => hfresh (List.mem_map.2 ⟨_, hmem, e.symm⟩)
      rw [get?_cons_of_ne hk]
      exact ih hrest hmem

/-- Fields with the same names have the same look-ups that fail. -/
theorem get?_eq_none_iff_of_keys {gs : Fields β} (h : fs.keys = gs.keys) (name : String) :
    fs.get? name = none ↔ gs.get? name = none := by
  rw [get?_eq_none_iff, get?_eq_none_iff, h]

/-- What is found under a name has a counterpart in fields with the same names. -/
theorem exists_get?_of_keys {gs : Fields β} (h : fs.keys = gs.keys)
    (hvalue : fs.get? name = some value) : ∃ other, gs.get? name = some other := by
  rw [← Option.ne_none_iff_exists', ne_eq, ← get?_eq_none_iff_of_keys h, hvalue]
  exact Option.some_ne_none value

theorem get?_map (g : α → β) (name : String) (fs : Fields α) :
    get? name (fs.map fun field => (field.1, g field.2)) = (fs.get? name).map g := by
  induction fs with
  | nil => rfl
  | cons pair rest ih =>
    by_cases hk : pair.1 = name
    · simp [get?, hk]
    · simp [get?, hk, ih]

theorem keys_insert_of_mem (h : name ∈ fs.keys) (value : α) :
    (fs.insert name value).keys = fs.keys := by
  induction fs with
  | nil => cases h
  | cons pair rest ih =>
    obtain ⟨key, old⟩ := pair
    by_cases hk : key = name
    · simp [insert, keys, hk]
    · have hmem : name ∈ keys rest := (List.mem_cons.1 h).resolve_left fun e => hk e.symm
      have hrest : List.map Prod.fst (insert name value rest) = List.map Prod.fst rest := ih hmem
      simp only [insert, keys, if_neg hk, List.map_cons, hrest]

/-- An insertion keeps names distinct. -/
theorem distinct_insert (h : fs.Distinct) (name : String) (value : α) :
    (fs.insert name value).Distinct := by
  by_cases hmem : name ∈ fs.keys
  · rw [Distinct, keys_insert_of_mem hmem]
    exact h
  · have hkeys : keys (fs ++ [(name, value)]) = fs.keys ++ [name] := List.map_append
    rw [Distinct, insert_of_not_mem hmem, hkeys]
    refine List.nodup_append.2 ⟨h, List.nodup_cons.2 ⟨List.not_mem_nil, List.nodup_nil⟩, ?_⟩
    intro key hkey other hother e
    obtain rfl := List.mem_singleton.1 hother
    exact hmem (e ▸ hkey)

theorem contains_iff : fs.contains name = true ↔ name ∈ fs.keys := by
  rw [contains, Option.isSome_iff_ne_none, ne_eq, get?_eq_none_iff, Classical.not_not]

theorem keys_insert_of_not_mem (h : name ∉ fs.keys) (value : α) :
    (fs.insert name value).keys = fs.keys ++ [name] := by
  rw [insert_of_not_mem h]
  exact List.map_append

theorem eraseDups_concat (names : List String) (name : String) :
    (names ++ [name]).eraseDups =
      if name ∈ names then names.eraseDups else names.eraseDups ++ [name] := by
  rw [List.eraseDups_append]
  by_cases h : name ∈ names
  · simp [h, List.removeAll]
  · simp [h, List.removeAll, List.eraseDups_cons]

/-- The names of insertions come in order of first use. -/
theorem keys_foldl_insert {γ : Type} {step : Fields α → γ → Fields α} {nameOf : γ → String}
    (hstep : ∀ fs x, ∃ value, step fs x = fs.insert (nameOf x) value) (xs : List γ)
    {names : List String} (hfs : fs.keys = names.eraseDups) :
    keys (xs.foldl step fs) = (names ++ xs.map nameOf).eraseDups := by
  induction xs generalizing fs names with
  | nil => rw [List.foldl_nil, List.map_nil, List.append_nil, hfs]
  | cons x rest ih =>
    obtain ⟨value, hvalue⟩ := hstep fs x
    have hkeys : keys (step fs x) = (names ++ [nameOf x]).eraseDups := by
      rw [hvalue, eraseDups_concat, ← hfs]
      by_cases hmem : nameOf x ∈ names
      · rw [if_pos hmem, keys_insert_of_mem (hfs ▸ List.mem_eraseDups.2 hmem)]
      · have hfresh : nameOf x ∉ fs.keys := fun h => hmem (List.mem_eraseDups.1 (hfs ▸ h))
        rw [if_neg hmem, keys_insert_of_not_mem hfresh]
    rw [List.foldl_cons, ih hkeys, List.append_assoc]
    rfl

/-- The names of insertions into no fields come in order of first use. -/
theorem keys_foldl_insert_nil {γ : Type} {step : Fields α → γ → Fields α} {nameOf : γ → String}
    (hstep : ∀ fs x, ∃ value, step fs x = fs.insert (nameOf x) value) (xs : List γ) :
    keys (xs.foldl step []) = (xs.map nameOf).eraseDups := by
  have hempty : keys ([] : Fields α) = ([] : List String).eraseDups := rfl
  rw [keys_foldl_insert hstep xs hempty, List.nil_append]

theorem keys_filter (p : String → Bool) (fs : Fields α) :
    keys (fs.filter fun field => p field.1) = fs.keys.filter p := by
  rw [keys, keys, List.filter_map]
  rfl

theorem get?_filter (p : String → Bool) (name : String) (fs : Fields α) :
    get? name (fs.filter fun field => p field.1) = if p name then fs.get? name else none := by
  induction fs with
  | nil => simp [get?]
  | cons pair rest ih =>
    obtain ⟨key, old⟩ := pair
    by_cases hk : key = name
    · subst hk
      cases hp : p key <;> simp [hp, get?, ih]
    · cases hp : p key <;> simp [hp, get?, hk, ih]

/-- Fields with distinct names are given by their names in order and what stands under each. -/
theorem ext_keys (h : fs.Distinct) (hkeys : fs.keys = gs.keys)
    (hget : ∀ name, fs.get? name = gs.get? name) : fs = gs := by
  induction fs generalizing gs with
  | nil => exact (List.map_eq_nil_iff.1 hkeys.symm).symm
  | cons pair rest ih =>
    obtain ⟨key, old⟩ := pair
    obtain ⟨hfresh, hrest⟩ := List.nodup_cons.1 h
    cases gs with
    | nil => cases hkeys
    | cons pair' rest' =>
      obtain ⟨key', new⟩ := pair'
      obtain ⟨rfl, hkeysRest⟩ : key = key' ∧ keys rest = keys rest' := List.cons.inj hkeys
      have hfirst := hget key
      rw [get?_cons_self, get?_cons_self] at hfirst
      obtain rfl := Option.some.inj hfirst
      refine congrArg _ (ih hrest hkeysRest fun name => ?_)
      by_cases hne : key = name
      · -- The name does not come again in either list.
        subst hne
        rw [get?_eq_none_iff.2 hfresh, get?_eq_none_iff.2 (hkeysRest ▸ hfresh)]
      · simpa [get?, hne] using hget name

/-! ### Insertions in a row -/

theorem insert_insert (name : String) (v w : α) (fs : Fields α) :
    (fs.insert name v).insert name w = fs.insert name w := by
  induction fs with
  | nil => simp [insert]
  | cons pair rest ih =>
    obtain ⟨key, old⟩ := pair
    by_cases hkey : key = name
    · simp [insert, hkey]
    · simp [insert, hkey, ih]

/-- A name that is present keeps its place, so it does not matter when it takes its value. -/
theorem insert_comm (hne : name ≠ other) (hname : (fs.get? name).isSome) (v w : α) :
    (fs.insert other w).insert name v = (fs.insert name v).insert other w := by
  induction fs with
  | nil => cases hname
  | cons pair rest ih =>
    obtain ⟨key, old⟩ := pair
    by_cases hkey : key = name
    · subst hkey
      simp [insert, hne]
    · rw [get?_cons_of_ne hkey] at hname
      by_cases hother : key = other
      · simp [insert, hother, Ne.symm hne]
      · simp [insert, hkey, hother, ih hname]

theorem mem_keys_insert {v : α} (h : other ∈ (fs.insert name v).keys) :
    other = name ∨ other ∈ fs.keys := by
  by_cases hname : name ∈ fs.keys
  · rw [keys_insert_of_mem hname] at h
    exact .inr h
  · rw [insert_of_not_mem hname, keys, List.map_append] at h
    rcases List.mem_append.1 h with h | h
    · exact .inr h
    · exact .inl (List.mem_singleton.1 h)

theorem distinct_insertAll (h : fs.Distinct) (pairs : List (String × α)) :
    (fs.insertAll pairs).Distinct := by
  induction pairs generalizing fs with
  | nil => exact h
  | cons pair rest ih => exact ih (distinct_insert h pair.1 pair.2)

/-- Under a name stands the last value that was inserted for it. -/
theorem get?_insertAll (fs : Fields α) (pairs : List (String × α)) (name : String) :
    (fs.insertAll pairs).get? name =
      ((pairs.filter fun pair => pair.1 = name).getLast?.map Prod.snd).or (fs.get? name) := by
  induction pairs generalizing fs with
  | nil => rfl
  | cons pair rest ih =>
    obtain ⟨key, v⟩ := pair
    have hstep : insertAll fs ((key, v) :: rest) = insertAll (fs.insert key v) rest := rfl
    rw [hstep, ih]
    by_cases hkey : key = name
    · -- The value is overwritten by a later one for the same name, if there is any.
      subst hkey
      rw [List.filter_cons_of_pos (by simp), List.getLast?_cons, get?_insert_self]
      cases (rest.filter fun pair => pair.1 = key).getLast? <;> rfl
    · rw [List.filter_cons_of_neg (by simpa using hkey), get?_insert_of_ne hkey]

/-- The names of a list come in order of first use. -/
theorem keys_ofList (pairs : List (String × α)) :
    (ofList pairs).keys = (pairs.map Prod.fst).eraseDups := by
  have hstep : ∀ (fs : Fields α) (pair : String × α),
      ∃ value, fs.insert pair.1 pair.2 = fs.insert pair.1 value := fun _ _ => ⟨_, rfl⟩
  exact keys_foldl_insert_nil hstep pairs

theorem distinct_ofList (pairs : List (String × α)) : (ofList pairs).Distinct := by
  have hempty : Distinct ([] : Fields α) := List.nodup_nil
  exact distinct_insertAll hempty pairs

/-- Each name of a list has its last value. -/
theorem get?_ofList (pairs : List (String × α)) (name : String) :
    (ofList pairs).get? name =
      (pairs.filter fun pair => pair.1 = name).getLast?.map Prod.snd := by
  rw [ofList, get?_insertAll]
  exact Option.or_none

/-- A name that is present and not inserted again may take its value before. -/
theorem insert_insertAll (hname : (fs.get? name).isSome) {pairs : List (String × α)}
    (hfresh : name ∉ pairs.map Prod.fst) (v : α) :
    (fs.insertAll pairs).insert name v = (fs.insert name v).insertAll pairs := by
  induction pairs generalizing fs with
  | nil => rfl
  | cons pair rest ih =>
    obtain ⟨key, w⟩ := pair
    rw [List.map_cons, List.mem_cons, not_or] at hfresh
    obtain ⟨hne, hrest⟩ := hfresh
    have hstill : ((fs.insert key w).get? name).isSome := by
      rwa [get?_insert_of_ne (Ne.symm hne)]
    calc ((fs.insert key w).insertAll rest).insert name v
        = ((fs.insert key w).insert name v).insertAll rest := ih hstill hrest
      _ = ((fs.insert name v).insert key w).insertAll rest := by rw [insert_comm hne hname]

theorem insertAll_insert (hgs : gs.Distinct) (fs : Fields α) (name : String) (v : α) :
    fs.insertAll (gs.insert name v) = (fs.insertAll gs).insert name v := by
  induction gs generalizing fs with
  | nil => rfl
  | cons pair rest ih =>
    obtain ⟨key, w⟩ := pair
    obtain ⟨hfresh, hrest⟩ := List.nodup_cons.1 hgs
    by_cases hkey : key = name
    · -- What the fields take first is overwritten, and nothing in between is of the same name.
      subst hkey
      have hname : ((fs.insert key w).get? key).isSome := by rw [get?_insert_self]; rfl
      calc fs.insertAll (insert key v ((key, w) :: rest))
          = (fs.insert key v).insertAll rest := by rw [insert, if_pos rfl]; rfl
        _ = ((fs.insert key w).insert key v).insertAll rest := by rw [insert_insert]
        _ = ((fs.insert key w).insertAll rest).insert key v :=
            (insert_insertAll hname hfresh v).symm
    · rw [insert, if_neg hkey]
      exact ih hrest (fs.insert key w)

/-- Insertions can be collected before they are made. -/
theorem insertAll_insertAll (hgs : gs.Distinct) (fs : Fields α) (pairs : List (String × α)) :
    fs.insertAll (gs.insertAll pairs) = (fs.insertAll gs).insertAll pairs := by
  induction pairs generalizing gs with
  | nil => rfl
  | cons pair rest ih =>
    calc fs.insertAll ((gs.insert pair.1 pair.2).insertAll rest)
        = (fs.insertAll (gs.insert pair.1 pair.2)).insertAll rest := ih (distinct_insert hgs _ _)
      _ = ((fs.insertAll gs).insert pair.1 pair.2).insertAll rest := by
          rw [insertAll_insert hgs]

end Docstore.Fields
