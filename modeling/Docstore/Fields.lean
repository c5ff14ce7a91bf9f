/-!
# Fields

Named values in the order in which their names were first given: the content of an object, of
a document, and of a declaration.

* `Fields.get?` : the first value of a name;
* `Fields.insert` : a name that is present keeps its place and takes the new value;
* `Fields.ofList` : the fields that inserting a list from the left gives;
* `Fields.Distinct` : no name is present twice.

Reading after an insertion gives the inserted value under its name (`get?_insert_self`) and
the old one under any other (`get?_insert_of_ne`). A list of distinct names is its own fields
(`ofList_eq_self`).
-/

namespace Docstore

/-- Named values in order. -/
abbrev Fields (α : Type) := List (String × α)

namespace Fields

variable {α : Type}

/-- The first value of a name. -/
def get? (name : String) : Fields α → Option α
  | [] => none
  | (key, value) :: rest => if key = name then some value else get? name rest

/-- A name is present. -/
def contains (name : String) (fs : Fields α) : Bool := (fs.get? name).isSome

/-- The fields with `value` under `name`: in place of the first value when the name is
present, and at the end otherwise. -/
def insert (name : String) (value : α) : Fields α → Fields α
  | [] => [(name, value)]
  | (key, old) :: rest =>
    if key = name then (key, value) :: rest else (key, old) :: insert name value rest

/-- The fields after inserting every pair in order. -/
def insertAll (fs : Fields α) (pairs : List (String × α)) : Fields α :=
  pairs.foldl (fun acc pair => acc.insert pair.1 pair.2) fs

/-- The fields that inserting every pair of a list gives. -/
def ofList (pairs : List (String × α)) : Fields α := insertAll [] pairs

/-- The names, in order. -/
def keys (fs : Fields α) : List String := fs.map Prod.fst

/-- No name is present twice. -/
def Distinct (fs : Fields α) : Prop := fs.keys.Nodup

theorem get?_insert_self (name : String) (value : α) (fs : Fields α) :
    (fs.insert name value).get? name = some value := by
  induction fs with
  | nil => simp [insert, get?]
  | cons pair rest ih =>
    obtain ⟨key, old⟩ := pair
    by_cases h : key = name <;> simp [insert, get?, h, ih]

theorem get?_insert_of_ne {name other : String} (h : name ≠ other) (value : α)
    (fs : Fields α) : (fs.insert name value).get? other = fs.get? other := by
  induction fs with
  | nil => simp [insert, get?, h]
  | cons pair rest ih =>
    obtain ⟨key, old⟩ := pair
    by_cases hk : key = name
    · subst hk
      simp [insert, get?, h]
    · by_cases ho : key = other
      · subst ho
        simp [insert, get?, hk]
      · simp [insert, get?, hk, ho, ih]

theorem get?_eq_none_iff {name : String} {fs : Fields α} :
    fs.get? name = none ↔ name ∉ fs.keys := by
  induction fs with
  | nil => simp [get?, keys]
  | cons pair rest ih =>
    obtain ⟨key, old⟩ := pair
    by_cases hk : key = name
    · simp [get?, keys, hk]
    · have : ¬ name = key := fun e => hk e.symm
      simpa [get?, keys, hk, this] using ih

theorem insert_of_not_mem {name : String} {fs : Fields α} (h : name ∉ fs.keys) (value : α) :
    fs.insert name value = fs ++ [(name, value)] := by
  induction fs with
  | nil => rfl
  | cons pair rest ih =>
    obtain ⟨key, old⟩ := pair
    simp only [keys, List.map_cons, List.mem_cons, not_or] at h
    have hk : ¬ key = name := fun e => h.1 e.symm
    simp [insert, hk, ih h.2]

theorem insertAll_of_nodup {fs : Fields α} {pairs : List (String × α)}
    (h : (Fields.keys (fs ++ pairs)).Nodup) : insertAll fs pairs = fs ++ pairs := by
  induction pairs generalizing fs with
  | nil => simp [insertAll]
  | cons pair rest ih =>
    obtain ⟨key, value⟩ := pair
    have hnot : key ∉ fs.keys := by
      intro hmem
      simp only [keys, List.map_append, List.map_cons] at h hmem
      exact (List.nodup_append.1 h).2.2 key hmem key (by simp) rfl
    have hstep : insertAll fs ((key, value) :: rest) =
        insertAll (fs ++ [(key, value)]) rest := by
      simp [insertAll, insert_of_not_mem hnot]
    rw [hstep, ih (by simpa using h)]
    simp

/-- A list of distinct names is its own fields. -/
theorem ofList_eq_self {pairs : List (String × α)} (h : Distinct pairs) :
    ofList pairs = pairs := by
  simpa [ofList] using @insertAll_of_nodup _ [] pairs (by simpa [Distinct] using h)

end Fields

end Docstore
