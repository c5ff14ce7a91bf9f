import Docstore.Script.Run

/-!
# Looking values up

What a chain of accessors leads to, and which variables it depends on.

* `FieldRef.lookup_congr` : only the variables of the chain count;
* `FieldRef.lookup_name`, `lookup_index`, `lookup_indexed` : one more accessor at the end;
* `FieldRef.count_eq_ok_iff` : only arrays have a length.
-/

namespace Docstore

namespace FieldRef

/-- The chain has none of the variables of a list. -/
def FreeOf (written : List String) (ref : FieldRef) : Prop :=
  ∀ v, Accessor.var v ∈ ref → v ∉ written

variable {env env' : Script.Env} {this current : Json} {ref : FieldRef} {found : Option Json}

theorem step_congr {a : Accessor} (whole : FieldRef)
    (h : ∀ v, a = .var v → env'.get? v = env.get? v) :
    a.step env' whole current = a.step env whole current := by
  cases a with
  | name key => rfl
  | index i => rfl
  | var v => simp only [Accessor.step, h v rfl]

theorem followFrom_congr (whole : FieldRef)
    (h : ∀ v, Accessor.var v ∈ ref → env'.get? v = env.get? v) :
    followFrom env' whole ref current = followFrom env whole ref current := by
  induction ref generalizing current with
  | nil => rfl
  | cons a rest ih =>
    have hstep : a.step env' whole current = a.step env whole current :=
      step_congr whole fun v hv => h v (hv ▸ List.mem_cons_self)
    have hrest : ∀ below, followFrom env' whole rest below = followFrom env whole rest below :=
      fun below => ih fun v hv => h v (List.mem_cons_of_mem a hv)
    simp only [followFrom, hstep, hrest]

/-- A chain leads to the same value when its variables are unchanged. -/
theorem lookup_congr (h : ∀ v, Accessor.var v ∈ ref → env'.get? v = env.get? v) :
    ref.lookup env' this = ref.lookup env this :=
  followFrom_congr ref h

theorem step_eq_ok_of_step {a : Accessor} {whole : FieldRef} (whole' : FieldRef)
    (h : a.step env whole current = .ok found) : a.step env whole' current = .ok found := by
  cases a with
  | name key => exact h
  | index i => exact h
  | var v =>
    simp only [Accessor.step] at h ⊢
    split at h
    · cases h
    · rename_i held _
      cases hi : held.index? with
      | none => simp [hi] at h
      | some i => simpa [hi] using h

/-- The chain named in errors does not matter to a look-up that succeeds. -/
theorem followFrom_eq_ok_of_followFrom {whole whole' : FieldRef}
    (h : followFrom env whole ref current = .ok found) :
    followFrom env whole' ref current = .ok found := by
  induction ref generalizing current with
  | nil => exact h
  | cons a rest ih =>
    simp only [followFrom] at h ⊢
    cases hstep : a.step env whole current with
    | error e => simp [hstep, bind, Except.bind] at h
    | ok below =>
      rw [step_eq_ok_of_step whole' hstep]
      cases below with
      | none => simpa [hstep, bind, Except.bind] using h
      | some below => exact ih (by simpa [hstep, bind, Except.bind] using h)

theorem followFrom_append {whole rest : FieldRef}
    (h : followFrom env whole ref current = .ok found) :
    followFrom env whole (ref ++ rest) current =
      found.elim (.ok none) (followFrom env whole rest) := by
  induction ref generalizing current with
  | nil =>
    obtain rfl : some current = found := by simpa [followFrom] using h
    rfl
  | cons a ref ih =>
    simp only [followFrom, List.cons_append] at h ⊢
    cases hstep : a.step env whole current with
    | error e => simp [hstep, bind, Except.bind] at h
    | ok below =>
      cases below with
      | none =>
        obtain rfl : none = found := by simpa [hstep, bind, Except.bind, pure, Except.pure] using h
        rfl
      | some below => exact ih (by simpa [hstep, bind, Except.bind] using h)

theorem lookup_concat {a : Accessor} {next : Option Json} (h : ref.lookup env this = .ok found)
    (ha : ∀ current, found = some current → a.step env (ref ++ [a]) current = .ok next)
    (hnone : found = none → next = none) : lookup env this (ref ++ [a]) = .ok next := by
  rw [lookup, followFrom_append (followFrom_eq_ok_of_followFrom h)]
  cases found with
  | none =>
    rw [hnone rfl]
    rfl
  | some current =>
    simp only [Option.elim_some, followFrom, ha current rfl]
    cases next <;> rfl

theorem lookup_name (h : ref.lookup env this = .ok found) (key : String) :
    lookup env this (ref ++ [.name key]) = .ok (found.bind (Json.get? key)) :=
  lookup_concat h (fun current hc => by rw [hc]; rfl) (fun hn => by rw [hn]; rfl)

theorem lookup_index (h : ref.lookup env this = .ok found) (i : Nat) :
    lookup env this (ref ++ [.index i]) = .ok (found.bind (Json.at? i)) :=
  lookup_concat h (fun current hc => by rw [hc]; rfl) (fun hn => by rw [hn]; rfl)

/-- The element whose index a variable holds. -/
theorem lookup_indexed {v : String} {i : Nat} (h : ref.lookup env this = .ok found)
    (hv : env.get? v = some (.int i)) :
    lookup env this (ref.indexed v) = .ok (found.bind (Json.at? i)) := by
  refine lookup_concat h (fun current hc => ?_) (fun hn => by rw [hn]; rfl)
  have hi : (Json.int i).index? = some i := by simp [Json.index?]
  simp only [Accessor.step, hv, hi, hc]
  rfl

/-- Only arrays have a length. -/
theorem count_eq_ok_iff {n : Nat} :
    ref.count env this = .ok n ↔
      ∃ items, ref.lookup env this = .ok (some (.array items)) ∧ items.length = n := by
  rw [count]
  cases h : ref.lookup env this with
  | error e => simp [bind, Except.bind]
  | ok found =>
    rcases found with _ | (_ | _ | _ | _ | _ | items | _) <;>
      simp [bind, Except.bind, pure, Except.pure, throw, throwThe, MonadExceptOf.throw]

end FieldRef

end Docstore
