import Docstore.Proofs.Fields
import Docstore.Record.Merge

/-!
# What merging keeps

* `Field.mergeValue` : the merged value of a declared member;
* `Members.MergeInvariant` : a property of records that every step of a merge preserves;
* `Members.get?_merge`, `Members.keys_merge` : what stands under a name after a merge, and in which
  order names stand;
* `Members.distinct_merge` : names stay distinct.
-/

namespace Docstore

/-- The merged value of a declared member: objects take over what they lack, and other values
stay as they are. -/
def Field.mergeValue : Field → Option Bson → Bson → Bson
  | .object members, some (.document old), .document new =>
    .document (Members.merge members old new)
  | _, _, new => new

namespace Members

variable {declared : Members} {name : String}

theorem get?_mergeInto_of_ne {members : Members} {key : String} (h : key ≠ name) (value : Bson)
    (new : Record) : Fields.get? name (mergeInto members key value new) = new.get? name := by
  cases value with
  | document old =>
    rw [mergeInto]
    split
    · exact Fields.get?_insert_of_ne h _ new
    · rfl
  | _ => rfl

theorem get?_mergeInto_self (members : Members) (key : String) (value : Bson) (new : Record) :
    Fields.get? key (mergeInto members key value new) =
      (new.get? key).map ((Field.object members).mergeValue (some value)) := by
  cases value with
  | document old =>
    rw [mergeInto]
    split
    · next nested hget =>
      rw [Fields.get?_insert_self, hget]
      rfl
    · next hget =>
      cases hnew : Fields.get? key new with
      | none => rfl
      | some b => cases b <;> first | rfl | exact absurd hnew (hget _)
  | _ => cases hnew : Fields.get? key new <;> simp [mergeInto, Field.mergeValue, hnew]

/-- The first old field, merged into the new ones. -/
def mergeFirst (declared : Members) (name : String) (value : Bson) (new : Record) : Record :=
  match declared.get? name with
  | none => if new.contains name then new else new.insert name value
  | some (.object members) => mergeInto members name value new
  | some _ => new

theorem merge_cons (declared : Members) (key : String) (value : Bson) (rest : List (String × Bson))
    (new : Record) :
    merge declared ((key, value) :: rest) new =
      merge declared rest (mergeFirst declared key value new) := by
  rw [merge]
  rfl

/-- A property of records, by their declaration and an index, that every step of a merge preserves:
an undeclared name may be added, and a declared document may be replaced by any other that has
the property where the old one has it. -/
structure MergeInvariant {ι : Type} (P : ι → Members → Record → Prop) : Prop where
  undeclared : ∀ {i : ι} {declared : Members} {r : Record} {name : String}, P i declared r →
    declared.get? name = none → ∀ value, P i declared (r.insert name value)
  declared : ∀ {i : ι} {declared members : Members} {r nested : Record} {name : String},
    P i declared r → declared.get? name = some (.object members) →
      r.get? name = some (.document nested) →
        ∃ j, P j members nested ∧
          ∀ merged, P j members merged → P i declared (r.insert name (.document merged))

mutual

/-- What every step of a merge preserves, the merge does. -/
theorem MergeInvariant.merge {ι : Type} {P : ι → Members → Record → Prop} (h : MergeInvariant P) :
    ∀ (old : List (String × Bson)) {i : ι} {declared : Members} {new : Record}, P i declared new →
      P i declared (Members.merge declared old new)
  | [], i, declared, new, hnew => hnew
  | (name, value) :: rest, i, declared, new, hnew => by
    rw [merge_cons]
    refine h.merge rest ?_
    unfold mergeFirst
    split
    · next hnone =>
      split
      · exact hnew
      · exact h.undeclared hnew hnone value
    · next members hobject => exact h.mergeInto value hnew hobject
    · exact hnew

theorem MergeInvariant.mergeInto {ι : Type} {P : ι → Members → Record → Prop}
    (h : MergeInvariant P) : ∀ (value : Bson) {i : ι} {declared members : Members} {name : String}
    {new : Record}, P i declared new → declared.get? name = some (.object members) →
      P i declared (Members.mergeInto members name value new)
  | value, i, declared, members, name, new, hnew, hname => by
    cases value with
    | document old =>
      rw [Members.mergeInto]
      split
      · next nested hnested =>
        obtain ⟨j, hinner, hset⟩ := h.declared hnew hname hnested
        exact hset _ (h.merge old hinner)
      · exact hnew
    | _ => exact hnew

end

theorem get?_mergeFirst_of_ne {key : String} (h : key ≠ name) (value : Bson) (new : Record) :
    Fields.get? name (mergeFirst declared key value new) = new.get? name := by
  unfold mergeFirst
  split
  · split
    · rfl
    · exact Fields.get?_insert_of_ne h value new
  · exact get?_mergeInto_of_ne h value new
  · rfl

theorem distinct_mergeFirst {new : Record} (h : new.Distinct) (key : String) (value : Bson) :
    (mergeFirst declared key value new).Distinct := by
  unfold mergeFirst
  split
  · split
    · exact h
    · exact Fields.distinct_insert h _ _
  · cases value with
    | document old =>
      rw [mergeInto]
      split
      · exact Fields.distinct_insert h _ _
      · exact h
    | _ => exact h
  · exact h

/-- A merge keeps names distinct. -/
theorem distinct_merge {new : Record} (h : new.Distinct) (old : Record) :
    (merge declared old new).Distinct := by
  induction old generalizing new with
  | nil => exact h
  | cons pair rest ih =>
    rw [merge_cons]
    exact ih (distinct_mergeFirst h _ _)

theorem get?_mergeFirst_self (declared : Members) (key : String) (value : Bson) (new : Record) :
    Fields.get? key (mergeFirst declared key value new) =
      (declared.get? key).elim ((new.get? key).or (some value))
        fun f => (new.get? key).map (f.mergeValue (some value)) := by
  unfold mergeFirst
  split
  · next hnone =>
    rw [hnone]
    cases hnew : Fields.get? key new with
    | none => simp [Fields.contains, hnew, Fields.get?_insert_self]
    | some b => simp [Fields.contains, hnew]
  · next members hobject =>
    rw [hobject, get?_mergeInto_self]
    rfl
  · next f hobject hsome =>
    rw [hsome]
    have hkeep : f.mergeValue (some value) = id := by
      funext b
      cases f <;> first | rfl | exact absurd rfl (hobject _)
    simp [hkeep]

theorem get?_merge_of_not_mem {old : Record} (h : name ∉ old.keys) (new : Record) :
    Fields.get? name (merge declared old new) = new.get? name := by
  induction old generalizing new with
  | nil => rfl
  | cons pair rest ih =>
    have hne : pair.1 ≠ name := fun e => h (e ▸ List.mem_cons_self)
    have hrest : name ∉ Fields.keys rest := fun hmem => h (List.mem_cons_of_mem _ hmem)
    rw [merge_cons, ih hrest, get?_mergeFirst_of_ne hne]

/-- Under a name stands what is new, merged with what is old if it is declared; what is undeclared
and not new stays. -/
theorem get?_merge {old : Record} (hold : old.Distinct) (declared : Members) (name : String)
    (new : Record) :
    Fields.get? name (merge declared old new) =
      (declared.get? name).elim ((new.get? name).or (old.get? name))
        fun f => (new.get? name).map (f.mergeValue (old.get? name)) := by
  induction old generalizing new with
  | nil =>
    have hkeep : ∀ f : Field, f.mergeValue none = id := fun f => by
      funext b
      cases f <;> rfl
    cases hdeclared : Fields.get? name declared <;> simp [merge, Fields.get?, hkeep]
  | cons pair rest ih =>
    obtain ⟨key, value⟩ := pair
    obtain ⟨hfresh, hrest⟩ := List.nodup_cons.1 hold
    rw [merge_cons]
    by_cases hkey : key = name
    · -- The names behind the first one are others.
      subst hkey
      rw [get?_merge_of_not_mem hfresh, get?_mergeFirst_self, Fields.get?_cons_self]
    · rw [ih hrest, get?_mergeFirst_of_ne hkey, Fields.get?_cons_of_ne hkey]

/-- The first old field adds its name when it is neither declared nor there. -/
theorem keys_mergeFirst (declared : Members) (name : String) (value : Bson) (new : Record) :
    Fields.keys (mergeFirst declared name value new) =
      if declared.get? name = none ∧ name ∉ new.keys then new.keys ++ [name] else new.keys := by
  unfold mergeFirst
  split
  · next hnone =>
    by_cases hmem : name ∈ new.keys
    · simp [Fields.contains_iff.2 hmem, hmem]
    · have hcontains : new.contains name = false := by
        rw [Bool.eq_false_iff, ne_eq, Fields.contains_iff]
        exact hmem
      simp [hcontains, hnone, hmem, Fields.keys_insert_of_not_mem hmem]
  · next members hobject =>
    rw [if_neg (by simp [hobject])]
    cases value with
    | document old =>
      rw [mergeInto]
      split
      · next nested hget =>
        refine Fields.keys_insert_of_mem ?_ _
        rw [← Fields.contains_iff, Fields.contains, hget]
        rfl
      · rfl
    | _ => rfl
  · next f hsome => rw [if_neg (by simp [hsome])]

/-- A merge adds the old names that are neither declared nor there, in their order. -/
theorem keys_merge {old : Record} (hold : old.Distinct) (declared : Members) (new : Record) :
    Fields.keys (merge declared old new) =
      new.keys ++ old.keys.filter fun name => declared.get? name = none ∧ name ∉ new.keys := by
  induction old generalizing new with
  | nil => simp [merge, Fields.keys]
  | cons pair rest ih =>
    obtain ⟨key, value⟩ := pair
    obtain ⟨hfresh, hrest⟩ := List.nodup_cons.1 hold
    have hkeys : Fields.keys ((key, value) :: rest) = key :: Fields.keys rest := rfl
    rw [merge_cons, ih hrest, keys_mergeFirst, hkeys, List.filter_cons]
    by_cases hadd : declared.get? key = none ∧ key ∉ new.keys
    · rw [if_pos hadd, if_pos (by simpa using hadd), List.append_assoc]
      refine congrArg (new.keys ++ key :: ·) (List.filter_congr fun name hmem => ?_)
      -- The names behind the first one are others.
      have hne : name ≠ key := fun e => hfresh (e ▸ hmem)
      simp [hne]
    · rw [if_neg hadd, if_neg (by simpa using hadd)]

/-- A simple field holds what is new. -/
theorem get?_merge_of_scalar {t : ScalarType} (h : declared.get? name = some (.scalar t))
    (old new : Record) : Fields.get? name (merge declared old new) = new.get? name := by
  induction old generalizing new with
  | nil => rfl
  | cons pair rest ih =>
    obtain ⟨key, value⟩ := pair
    rw [merge_cons, ih]
    by_cases hkey : key = name
    · subst hkey
      rw [mergeFirst, h]
    · exact get?_mergeFirst_of_ne hkey value new

end Members

end Docstore
