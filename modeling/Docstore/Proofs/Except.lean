/-!
# Steps that succeed

* `bind_eq_ok_iff` : two steps succeed when the first one does and the second one does on its
  result;
* `pure_eq_ok_iff` : the step that does nothing;
* `map_eq_ok_iff` : a step whose result is changed;
* `Elementwise` : a walk over a list that takes one step for each element.
-/

namespace Docstore

variable {ε α β : Type}

/-- Two steps in a row succeed when both do. -/
theorem bind_eq_ok_iff {x : Except ε α} {f : α → Except ε β} {b : β} :
    x >>= f = .ok b ↔ ∃ a, x = .ok a ∧ f a = .ok b := by
  cases x <;> simp [bind, Except.bind]

theorem ok_bind (a : α) (f : α → Except ε β) : Except.ok a >>= f = f a := rfl

theorem pure_eq_ok_iff {a b : α} : (pure a : Except ε α) = .ok b ↔ a = b := by
  simp [pure, Except.pure]

theorem map_eq_ok_iff {x : Except ε α} {f : α → β} {b : β} :
    x.map f = .ok b ↔ ∃ a, x = .ok a ∧ f a = b := by
  cases x <;> simp [Except.map]

/-- A list of the same length has an element at the same index. -/
theorem getElem?_of_length {as : List α} {bs : List β} (h : bs.length = as.length)
    {i : Nat} {a : α} (ha : as[i]? = some a) : ∃ b, bs[i]? = some b := by
  obtain ⟨hi, -⟩ := List.getElem?_eq_some_iff.1 ha
  exact ⟨bs[i], List.getElem?_eq_getElem (h ▸ hi)⟩

/-- The walk `walk` takes the step `step` for each element, with the index that it has when the
first one is at a given index. -/
structure Elementwise (walk : Nat → List α → Except ε (List β)) (step : Nat → α → Except ε β) :
    Prop where
  nil : ∀ start, walk start [] = .ok []
  cons : ∀ start a rest, walk start (a :: rest) = do
    let b ← step start a
    return b :: (← walk (start + 1) rest)

namespace Elementwise

variable {walk : Nat → List α → Except ε (List β)} {step : Nat → α → Except ε β}

theorem index_succ (start i : Nat) : start + (i + 1) = start + 1 + i := by omega

/-- A walk succeeds when every step does, with one result for each element. -/
theorem eq_ok_iff (h : Elementwise walk step) (start : Nat) {as : List α} {bs : List β} :
    walk start as = .ok bs ↔ bs.length = as.length ∧
      ∀ (i : Nat) a b, as[i]? = some a → bs[i]? = some b → step (start + i) a = .ok b := by
  induction as generalizing start bs with
  | nil =>
    rw [h.nil]
    constructor
    · intro heq
      obtain rfl : [] = bs := Except.ok.inj heq
      exact ⟨rfl, fun i a b ha => by cases ha⟩
    · rintro ⟨hlength, -⟩
      rw [List.eq_nil_of_length_eq_zero hlength]
  | cons a rest ih =>
    rw [h.cons, bind_eq_ok_iff]
    constructor
    · rintro ⟨b, hb, hwalk⟩
      obtain ⟨more, hmore, heq⟩ := bind_eq_ok_iff.1 hwalk
      obtain rfl : b :: more = bs := Except.ok.inj heq
      obtain ⟨hlength, hrest⟩ := (ih _).1 hmore
      refine ⟨congrArg Nat.succ hlength, fun i x y hx hy => ?_⟩
      cases i with
      | zero =>
        obtain rfl : a = x := Option.some.inj hx
        obtain rfl : b = y := Option.some.inj hy
        exact hb
      | succ i =>
        rw [index_succ start i]
        exact hrest i x y hx hy
    · rintro ⟨hlength, hsteps⟩
      cases bs with
      | nil => cases hlength
      | cons b more =>
        refine ⟨b, hsteps 0 a b rfl rfl, bind_eq_ok_iff.2 ⟨more, (ih _).2 ⟨?_, ?_⟩, rfl⟩⟩
        · exact Nat.succ.inj hlength
        · intro i x y hx hy
          rw [← index_succ start i]
          exact hsteps (i + 1) x y hx hy

/-- A walk whose steps all succeed succeeds. -/
theorem exists_ok (h : Elementwise walk step) (start : Nat) {as : List α}
    (hsteps : ∀ (i : Nat) a, as[i]? = some a → ∃ b, step (start + i) a = .ok b) :
    ∃ bs, walk start as = .ok bs := by
  induction as generalizing start with
  | nil => exact ⟨[], h.nil start⟩
  | cons a rest ih =>
    obtain ⟨b, hb⟩ := hsteps 0 a rfl
    obtain ⟨more, hmore⟩ := ih (start + 1) fun i x hx => by
      obtain ⟨y, hy⟩ := hsteps (i + 1) x hx
      exact ⟨y, by rwa [← index_succ start i]⟩
    refine ⟨b :: more, ?_⟩
    rw [h.cons, bind_eq_ok_iff]
    exact ⟨b, hb, bind_eq_ok_iff.2 ⟨more, hmore, rfl⟩⟩

/-- Walks of the same length whose steps are the same are the same. -/
theorem congr (h : Elementwise walk step) (start : Nat) {as as' : List α}
    (hlength : as'.length = as.length)
    (hsteps : ∀ (i : Nat) a a', as[i]? = some a → as'[i]? = some a' →
      step (start + i) a' = step (start + i) a) : walk start as' = walk start as := by
  induction as generalizing as' start with
  | nil => rw [List.eq_nil_of_length_eq_zero hlength]
  | cons a rest ih =>
    cases as' with
    | nil => cases hlength
    | cons a' rest' =>
      have hfirst : step start a' = step start a := hsteps 0 a a' rfl rfl
      rw [h.cons, h.cons, hfirst, ih (start + 1) (Nat.succ.inj hlength) fun i x x' hx hx' => ?_]
      rw [← index_succ start i]
      exact hsteps (i + 1) x x' hx hx'

end Elementwise

end Docstore
