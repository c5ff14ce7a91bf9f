import Docstore.Proofs.Except

/-!
# Refusals

A walk that stops fails for the first thing that is wrong.

* `FirstOf` : what is related to the first element of a list that anything is related to;
* `Refuses` : a step succeeds when nothing is wrong with any element of a list, and otherwise fails
  for the first fault;
* `Refuses.bind` : steps in a row refuse lists in a row;
* `Refuses.exists_ok_iff`, `Refuses.eq_error_iff` : when such a step succeeds, and what it fails
  with.
-/

namespace Docstore

variable {ε α β γ : Type}

/-- The first element of a list that is related to anything is related to `b`. -/
inductive FirstOf (R : α → β → Prop) : List α → β → Prop where
  | here {a : α} {rest : List α} {b : β} (h : R a b) : FirstOf R (a :: rest) b
  | later {a : α} {rest : List α} {b : β} (ha : ∀ b, ¬ R a b) (h : FirstOf R rest b) :
      FirstOf R (a :: rest) b

namespace FirstOf

variable {R : α → β → Prop} {as as' : List α} {b b' : β}

theorem append_left (h : FirstOf R as b) : FirstOf R (as ++ as') b := by
  induction h with
  | here h => exact .here h
  | later ha _ ih => exact .later ha ih

theorem append_right (has : ∀ a ∈ as, ∀ b, ¬ R a b) (h : FirstOf R as' b) :
    FirstOf R (as ++ as') b := by
  induction as with
  | nil => exact h
  | cons a rest ih =>
    obtain ⟨ha, hrest⟩ := List.forall_mem_cons.1 has
    exact .later ha (ih hrest)

theorem exists_mem (h : FirstOf R as b) : ∃ a ∈ as, R a b := by
  induction h with
  | here h => exact ⟨_, List.mem_cons_self, h⟩
  | later _ _ ih =>
    obtain ⟨a, hmem, ha⟩ := ih
    exact ⟨a, List.mem_cons_of_mem _ hmem, ha⟩

/-- There is one first fault when every element has one fault at most. -/
theorem unique (hR : ∀ a b b', R a b → R a b' → b = b') (h : FirstOf R as b)
    (h' : FirstOf R as b') : b = b' := by
  induction h with
  | here h =>
    cases h' with
    | here h' => exact hR _ _ _ h h'
    | later ha _ => exact absurd h (ha _)
  | later ha _ ih =>
    cases h' with
    | here h' => exact absurd h' (ha _)
    | later _ h' => exact ih h'

end FirstOf

/-- Either a step succeeds and there is no fault in a list, or it fails with the first one. -/
inductive Refuses (R : α → ε → Prop) (x : Except ε β) (as : List α) : Prop where
  | accepted (hx : ∃ b, x = .ok b) (has : ∀ a ∈ as, ∀ err, ¬ R a err)
  | refused (err : ε) (hx : x = .error err) (has : FirstOf R as err)

namespace Refuses

variable {R : α → ε → Prop} {x : Except ε β} {a : α} {as as' : List α} {err : ε}

theorem pass (b : β) : Refuses R (.ok b : Except ε β) [] :=
  .accepted ⟨b, rfl⟩ fun _ hmem => absurd hmem List.not_mem_nil

/-- A fault of the first element is the reason. -/
theorem stop (h : R a err) (as : List α) : Refuses R (.error err : Except ε β) (a :: as) :=
  .refused err rfl (.here h)

/-- An element without faults changes nothing. -/
theorem cons (ha : ∀ err, ¬ R a err) (h : Refuses R x as) : Refuses R x (a :: as) := by
  cases h with
  | accepted hx has => exact .accepted hx (List.forall_mem_cons.2 ⟨ha, has⟩)
  | refused err hx has => exact .refused err hx (.later ha has)

theorem bind {f : β → Except ε γ} (h : Refuses R x as) (hf : ∀ b, Refuses R (f b) as') :
    Refuses R (x >>= f) (as ++ as') := by
  cases h with
  | accepted hx has =>
    obtain ⟨b, rfl⟩ := hx
    rw [ok_bind]
    cases hf b with
    | accepted hfb has' => exact .accepted hfb (List.forall_mem_append.2 ⟨has, has'⟩)
    | refused err hfb has' => exact .refused err hfb (has'.append_right has)
  | refused err hx has =>
    rw [hx]
    exact .refused err rfl has.append_left

theorem map (h : Refuses R x as) (f : β → γ) : Refuses R (x.map f) as := by
  cases h with
  | accepted hx has =>
    obtain ⟨b, rfl⟩ := hx
    exact .accepted ⟨f b, rfl⟩ has
  | refused err hx has =>
    rw [hx]
    exact .refused err rfl has

/-- The step succeeds exactly when there is no fault. -/
theorem exists_ok_iff (h : Refuses R x as) : (∃ b, x = .ok b) ↔ ∀ a ∈ as, ∀ err, ¬ R a err := by
  cases h with
  | accepted hx has => exact iff_of_true hx has
  | refused err hx has =>
    rw [hx]
    refine iff_of_false (fun ⟨b, hb⟩ => by cases hb) fun hnone => ?_
    obtain ⟨a, hmem, ha⟩ := has.exists_mem
    exact hnone a hmem err ha

/-- The step fails with the first fault, and only with it. -/
theorem eq_error_iff (h : Refuses R x as) (hR : ∀ a err err', R a err → R a err' → err = err') :
    x = .error err ↔ FirstOf R as err := by
  cases h with
  | accepted hx has =>
    obtain ⟨b, rfl⟩ := hx
    refine iff_of_false (fun herr => by cases herr) fun hfirst => ?_
    obtain ⟨a, hmem, ha⟩ := hfirst.exists_mem
    exact has a hmem err ha
  | refused err' hx has =>
    rw [hx]
    constructor
    · intro herr
      obtain rfl := Except.error.inj herr
      exact has
    · intro hfirst
      rw [has.unique hR hfirst]

end Refuses

end Docstore
