import Docstore.Proofs.Except
import Docstore.Proofs.Script.Lookup

/-!
# Loops that search

A block of statements may decide a property: it answers `true` where the property holds, and
goes on where it does not.

* `Script.AgreeOff` : environments that differ at most in given variables;
* `Stmt.writes` : the variables that a statement gives values to;
* `Stmt.runBlock_agreeOff` : a run leaves every other variable alone;
* `Stmt.Decides` : a block decides a property;
* `Stmt.decides_forEach` : a loop whose body decides a property of an index decides whether
  some index has it;
* `Stmt.loopFrom_until` : a loop that is left at the first index with a property.
-/

namespace Docstore

namespace Script

/-- The environments differ at most in the variables of a list. -/
def AgreeOff (written : List String) (env env' : Env) : Prop :=
  ∀ v, v ∉ written → env'.get? v = env.get? v

namespace AgreeOff

variable {written wider : List String} {env env' env'' : Env} {v : String}

theorem refl (written : List String) (env : Env) : AgreeOff written env env := fun _ _ => rfl

theorem trans (h : AgreeOff written env env') (h' : AgreeOff written env' env'') :
    AgreeOff written env env'' := fun v hv => (h' v hv).trans (h v hv)

theorem mono (h : AgreeOff written env env') (hsub : written ⊆ wider) :
    AgreeOff wider env env' := fun v hv => h v fun hw => hv (hsub hw)

theorem insert (h : AgreeOff written env env') (hv : v ∈ written) (value : Json) :
    AgreeOff written env (env'.insert v value) := fun u hu => by
  have hne : v ≠ u := fun e => hu (e ▸ hv)
  rw [Fields.get?_insert_of_ne hne, h u hu]

/-- A chain of other variables leads to the same value. -/
theorem lookup {ref : FieldRef} {this : Json} (h : AgreeOff written env env')
    (hfree : ref.FreeOf written) : ref.lookup env' this = ref.lookup env this :=
  FieldRef.lookup_congr fun v hv => h v (hfree v hv)

end AgreeOff

end Script

open Script (AgreeOff)

namespace Stmt

mutual

/-- The variables that a statement gives values to. -/
def writes : Stmt → List String
  | .declare v _ => [v]
  | .assign v _ => [v]
  | .forEach v _ body => v :: blockWrites body
  | .branch _ yes no => blockWrites yes ++ blockWrites no
  | .result _ => []
  | .leave => []

/-- The variables that statements in a row give values to. -/
def blockWrites : List Stmt → List String
  | [] => []
  | s :: rest => writes s ++ blockWrites rest

end

variable {this : Json} {env env' : Script.Env} {flow : Flow} {v : String}

/-! ### Frames -/

theorem loopFrom_agreeOff {written : List String}
    {body : Nat → Script.Env → Except ScriptError (Flow × Script.Env)}
    (hbody : ∀ i env flow env', body i env = .ok (flow, env') → AgreeOff written env env') :
    ∀ {count i : Nat} {env : Script.Env}, loopFrom body count i env = .ok (flow, env') →
      AgreeOff written env env' := by
  intro count
  induction count with
  | zero =>
    intro i env h
    simp only [loopFrom, Except.ok.injEq, Prod.mk.injEq] at h
    exact h.2 ▸ .refl _ _
  | succ count ih =>
    intro i env h
    obtain ⟨⟨ended, env₁⟩, hone, hrest⟩ := bind_eq_ok_iff.1 h
    have hkept := hbody _ _ _ _ hone
    cases ended with
    | next => exact hkept.trans (ih hrest)
    | leave =>
      simp only [pure_eq_ok_iff, Prod.mk.injEq] at hrest
      exact hrest.2 ▸ hkept
    | result b =>
      simp only [pure_eq_ok_iff, Prod.mk.injEq] at hrest
      exact hrest.2 ▸ hkept

mutual

/-- A run leaves every variable alone that the statement does not write. -/
theorem run_agreeOff : ∀ {s : Stmt} {env : Script.Env} {flow : Flow} {env' : Script.Env},
    s.run this env = .ok (flow, env') → AgreeOff s.writes env env'
  | .declare w value, env, _, _, h => by
    obtain ⟨held, -, h⟩ := bind_eq_ok_iff.1 h
    simp only [pure_eq_ok_iff, Prod.mk.injEq] at h
    exact h.2 ▸ (AgreeOff.refl _ env).insert (by simp [writes]) held
  | .assign w value, env, _, _, h => by
    obtain ⟨held, -, h⟩ := bind_eq_ok_iff.1 h
    simp only [pure_eq_ok_iff, Prod.mk.injEq] at h
    exact h.2 ▸ (AgreeOff.refl _ env).insert (by simp [writes]) held
  | .forEach w array body, env, _, _, h => by
    obtain ⟨count, -, h⟩ := bind_eq_ok_iff.1 h
    refine loopFrom_agreeOff (fun i env₁ flow env₂ hone => ?_) h
    have hset := (AgreeOff.refl _ env₁).insert (v := w) (List.mem_cons_self (l := blockWrites body))
      (.int i)
    exact hset.trans ((runBlock_agreeOff hone).mono (List.subset_cons_self w _))
  | .branch cond yes no, env, _, _, h => by
    obtain ⟨held, -, h⟩ := bind_eq_ok_iff.1 h
    split at h
    · exact (runBlock_agreeOff h).mono (List.subset_append_left _ _)
    · exact (runBlock_agreeOff h).mono (List.subset_append_right _ _)
  | .result value, env, _, _, h => by
    obtain ⟨held, -, h⟩ := bind_eq_ok_iff.1 h
    simp only [pure_eq_ok_iff, Prod.mk.injEq] at h
    exact h.2 ▸ .refl _ _
  | .leave, env, _, _, h => by
    simp only [run, Except.ok.injEq, Prod.mk.injEq] at h
    exact h.2 ▸ .refl _ _

/-- A run leaves every variable alone that none of the statements writes. -/
theorem runBlock_agreeOff : ∀ {body : List Stmt} {env : Script.Env} {flow : Flow}
    {env' : Script.Env}, runBlock this body env = .ok (flow, env') →
      AgreeOff (blockWrites body) env env'
  | [], env, _, _, h => by
    simp only [runBlock, Except.ok.injEq, Prod.mk.injEq] at h
    exact h.2 ▸ .refl _ _
  | s :: rest, env, _, _, h => by
    obtain ⟨⟨ended, env₁⟩, hone, hrest⟩ := bind_eq_ok_iff.1 h
    have hkept := (run_agreeOff hone).mono (List.subset_append_left s.writes (blockWrites rest))
    cases ended with
    | next => exact hkept.trans ((runBlock_agreeOff hrest).mono (List.subset_append_right _ _))
    | leave =>
      simp only [pure_eq_ok_iff, Prod.mk.injEq] at hrest
      exact hrest.2 ▸ hkept
    | result b =>
      simp only [pure_eq_ok_iff, Prod.mk.injEq] at hrest
      exact hrest.2 ▸ hkept

end

/-! ### Blocks in a row -/

theorem runBlock_singleton (s : Stmt) : runBlock this [s] env = s.run this env := by
  simp only [runBlock]
  cases h : s.run this env with
  | error e => rfl
  | ok ended =>
    obtain ⟨flow, env₁⟩ := ended
    cases flow <;> rfl

/-- Blocks in a row run one after the other, until one does not end with the next statement. -/
theorem runBlock_append (first second : List Stmt) :
    runBlock this (first ++ second) env =
      runBlock this first env >>= fun ended =>
        if ended.1 = .next then runBlock this second ended.2 else .ok ended := by
  induction first generalizing env with
  | nil => rfl
  | cons s rest ih =>
    simp only [List.cons_append, runBlock]
    cases h : s.run this env with
    | error e => rfl
    | ok ended =>
      obtain ⟨flow, env₁⟩ := ended
      cases flow with
      | next => exact ih
      | leave => rfl
      | result b => rfl

/-! ### Decisions -/

/-- The block answers `true` where `P` holds and goes on where it does not, unless it stops with
an error. -/
def Decides (this : Json) (body : List Stmt) (env : Script.Env) (P : Prop) : Prop :=
  ∀ flow env', runBlock this body env = .ok (flow, env') →
    (flow = .result true ∧ P) ∨ (flow = .next ∧ ¬ P)

theorem Decides.congr {body : List Stmt} {P Q : Prop} (h : Decides this body env P)
    (hPQ : P ↔ Q) : Decides this body env Q := by
  rwa [← propext hPQ]

/-- A loop that searches finds an index when there is one. -/
theorem loopFrom_decides {body : Nat → Script.Env → Except ScriptError (Flow × Script.Env)}
    {P : Nat → Prop} {Inv : Script.Env → Prop}
    (hbody : ∀ i env, Inv env → ∀ flow env', body i env = .ok (flow, env') →
      Inv env' ∧ ((flow = .result true ∧ P i) ∨ (flow = .next ∧ ¬ P i))) :
    ∀ {count i : Nat} {env : Script.Env}, Inv env →
      loopFrom body count i env = .ok (flow, env') →
        (flow = .result true ∧ ∃ j, i ≤ j ∧ j < i + count ∧ P j) ∨
          (flow = .next ∧ ¬ ∃ j, i ≤ j ∧ j < i + count ∧ P j) := by
  intro count
  induction count with
  | zero =>
    intro i env _ h
    simp only [loopFrom, Except.ok.injEq, Prod.mk.injEq] at h
    refine .inr ⟨h.1.symm, ?_⟩
    rintro ⟨j, hij, hj, -⟩
    omega
  | succ count ih =>
    intro i env hInv h
    obtain ⟨⟨ended, env₁⟩, hone, hrest⟩ := bind_eq_ok_iff.1 h
    obtain ⟨hInv₁, ⟨rfl, hP⟩ | ⟨rfl, hP⟩⟩ := hbody i env hInv _ _ hone
    · simp only [pure_eq_ok_iff, Prod.mk.injEq] at hrest
      exact .inl ⟨hrest.1.symm, i, Nat.le_refl i, by omega, hP⟩
    · -- This index lacks the property, so the others decide.
      rcases ih hInv₁ hrest with ⟨hflow, j, hij, hj, hPj⟩ | ⟨hflow, hnone⟩
      · exact .inl ⟨hflow, j, by omega, by omega, hPj⟩
      · refine .inr ⟨hflow, ?_⟩
        rintro ⟨j, hij, hj, hPj⟩
        by_cases hji : j = i
        · exact hP (hji ▸ hPj)
        · exact hnone ⟨j, by omega, by omega, hPj⟩

/-- A loop whose body decides a property of the index decides whether some index has it. The
body may count on the variables that neither it nor the loop writes. -/
theorem decides_forEach {array : FieldRef} {body : List Stmt} {found : Option Json}
    {P : Nat → Prop} (hfound : array.lookup env this = .ok found)
    (hbody : ∀ (i : Nat) env₁, AgreeOff (v :: blockWrites body) env env₁ →
      Fields.get? v env₁ = some (.int i) → Decides this body env₁ (P i)) :
    Decides this [.forEach v array body] env
      (∃ items i, found = some (.array items) ∧ i < items.length ∧ P i) := by
  intro flow env' h
  rw [runBlock_singleton] at h
  obtain ⟨count, hcount, hloop⟩ := bind_eq_ok_iff.1 h
  obtain ⟨items, hitems, hlength⟩ := FieldRef.count_eq_ok_iff.1 hcount
  obtain rfl : found = some (.array items) := by
    rw [hfound] at hitems
    exact Except.ok.inj hitems
  -- A round starts and ends with what was there before the loop, but for what the loop writes.
  have hstep : ∀ (i : Nat) env₁, AgreeOff (v :: blockWrites body) env env₁ →
      ∀ flow env₂, runBlock this body (Fields.insert v (.int i) env₁) = .ok (flow, env₂) →
        AgreeOff (v :: blockWrites body) env env₂ ∧
          ((flow = .result true ∧ P i) ∨ (flow = .next ∧ ¬ P i)) := by
    intro i env₁ hkept flow env₂ hone
    have hset := hkept.insert List.mem_cons_self (.int i)
    exact ⟨hset.trans ((runBlock_agreeOff hone).mono (List.subset_cons_self v _)),
      hbody i _ hset (Fields.get?_insert_self _ _ _) _ _ hone⟩
  rcases loopFrom_decides hstep (.refl _ _) hloop with ⟨hflow, j, -, hj, hP⟩ | ⟨hflow, hnone⟩
  · exact .inl ⟨hflow, items, j, rfl, by omega, hP⟩
  · refine .inr ⟨hflow, ?_⟩
    rintro ⟨items', i, hsame, hi, hP⟩
    obtain rfl : items = items' := by simpa using hsame
    exact hnone ⟨i, Nat.zero_le i, by omega, hP⟩

/-- A loop that is left at the first index with a property: what holds before each round holds
in the end when no index has it, and otherwise what the last round brings about. -/
theorem loopFrom_until {body : Nat → Script.Env → Except ScriptError (Flow × Script.Env)}
    {m : Nat → Bool} {Inv Left : Script.Env → Prop}
    (hnext : ∀ i env, Inv env → m i = false → ∃ env', body i env = .ok (.next, env') ∧ Inv env')
    (hleave : ∀ i env, Inv env → m i = true →
      ∃ env', body i env = .ok (.leave, env') ∧ Left env') :
    ∀ (count i : Nat) {env : Script.Env}, Inv env →
      ∃ env', loopFrom body count i env = .ok (.next, env') ∧
        ((∀ j, i ≤ j → j < i + count → m j = false) ∧ Inv env' ∨
          (∃ j, i ≤ j ∧ j < i + count ∧ m j = true) ∧ Left env') := by
  intro count
  induction count with
  | zero => exact fun i env hInv => ⟨env, rfl, .inl ⟨fun j hij hj => by omega, hInv⟩⟩
  | succ count ih =>
    intro i env hInv
    cases hm : m i with
    | true =>
      obtain ⟨env₁, hone, hLeft⟩ := hleave i env hInv hm
      refine ⟨env₁, ?_, .inr ⟨⟨i, Nat.le_refl i, by omega, hm⟩, hLeft⟩⟩
      simp only [loopFrom, hone]
      rfl
    | false =>
      obtain ⟨env₁, hone, hInv₁⟩ := hnext i env hInv hm
      obtain ⟨env', hloop, hrest⟩ := ih (i + 1) hInv₁
      refine ⟨env', ?_, hrest.imp ?_ ?_⟩
      · simp only [loopFrom, hone]
        exact hloop
      · rintro ⟨hall, hInv'⟩
        refine ⟨fun j hij hj => ?_, hInv'⟩
        by_cases hji : j = i
        · rw [hji, hm]
        · exact hall j (by omega) (by omega)
      · rintro ⟨⟨j, hij, hj, hmj⟩, hLeft⟩
        exact ⟨⟨j, by omega, by omega, hmj⟩, hLeft⟩

end Stmt

end Docstore
