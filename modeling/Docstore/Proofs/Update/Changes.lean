import Docstore.Update.Native

/-!
# Changes of an integer

What updates do to a single field that holds an integer or nothing, and what is left of a list
of such changes when only the last one of each operator is kept.

* `Change` : setting, adding to and removing a field;
* `Change.run` : changes one after another;
* `Change.Collects` : a list with the last change of each operator, in any order;
* `Change.Collectable` : the exact condition under which such a list does the same.

A collectable list does the same as every list that collects it (`run_eq_of_collects`), and a list
is collectable as soon as, for each change that is kept, one order with that change at the end does
the same (`collectable_of_run_eq`).
-/

namespace Docstore

/-- A change of an integer field. -/
inductive Change where
  | set (n : Int64)
  | add (n : Int64)
  | unset
deriving DecidableEq

namespace Change

/-- The native operator of a change. -/
def operator : Change → String
  | .set _ => Assignment.set.native
  | .add _ => Assignment.add.native
  | .unset => removalOperator

/-- The integer that a change carries. -/
def operand : Change → Int
  | .set n => n.toInt
  | .add n => n.toInt
  | .unset => 0

/-- The field after a change. Adding to a field that is absent sets it. -/
def apply : Change → Option Int → Option Int
  | .set n, _ => some n.toInt
  | .add n, v => some (v.getD 0 + n.toInt)
  | .unset, _ => none

/-- The field after changes one after another. -/
def run (cs : List Change) (v : Option Int) : Option Int := cs.foldl (fun v c => c.apply v) v

/-- The last change of an operator. -/
def lastWith (operator : String) (cs : List Change) : Option Change :=
  (cs.filter fun c => c.operator = operator).getLast?

/-- A list has the last change of each operator, once, and nothing else. -/
structure Collects (ds cs : List Change) : Prop where
  operators : (ds.map operator).Nodup
  mem_iff : ∀ {d}, d ∈ ds ↔ lastWith d.operator cs = some d

/-- The sum with what a change adds; a field that is set starts anew. -/
def addTo (sum : Int) : Change → Int
  | .add n => sum + n.toInt
  | _ => 0

/-- The sum of what is added after the field is set or removed for the last time. -/
def addedInTheEnd (cs : List Change) : Int := cs.foldl addTo 0

/-- The operand of the last addition. -/
def lastAdded (cs : List Change) : Int :=
  ((lastWith Assignment.add.native cs).map operand).getD 0

/-- The field is only removed, or it is never removed, the additions that count are worth the last
of them, and that one is worth nothing if the field is set as well. -/
def Collectable (cs : List Change) : Prop :=
  (∀ c ∈ cs, c = .unset) ∨
    (.unset ∉ cs ∧ addedInTheEnd cs = lastAdded cs ∧ ((∃ n, .set n ∈ cs) → lastAdded cs = 0))

variable {c d : Change} {cs ds : List Change} {op : String} {n : Int64} {v : Option Int}

/-! ### Operators -/

theorem operator_eq_set_iff : c.operator = Assignment.set.native ↔ ∃ n, c = .set n := by
  cases c <;> simp [operator, Assignment.native, removalOperator]

theorem operator_eq_add_iff : c.operator = Assignment.add.native ↔ ∃ n, c = .add n := by
  cases c <;> simp [operator, Assignment.native, removalOperator]

theorem operator_eq_unset_iff : c.operator = removalOperator ↔ c = .unset := by
  cases c <;> simp [operator, Assignment.native, removalOperator]

theorem lastWith_cons (op : String) (c : Change) (cs : List Change) :
    lastWith op (c :: cs) = (lastWith op cs).or (if c.operator = op then some c else none) := by
  unfold lastWith
  by_cases h : c.operator = op
  · rw [List.filter_cons_of_pos (by simpa using h), List.getLast?_cons, if_pos h]
    cases (cs.filter fun c => c.operator = op).getLast? <;> rfl
  · rw [List.filter_cons_of_neg (by simpa using h), if_neg h, Option.or_none]

theorem mem_of_lastWith (h : lastWith op cs = some c) : c ∈ cs ∧ c.operator = op := by
  have hmem := List.mem_of_getLast? h
  simpa using List.mem_filter.1 hmem

theorem exists_lastWith (h : c ∈ cs) : ∃ d, lastWith c.operator cs = some d := by
  have hne : cs.filter (fun d => d.operator = c.operator) ≠ [] :=
    List.ne_nil_of_mem (List.mem_filter.2 ⟨h, by simp⟩)
  exact ⟨_, List.getLast?_eq_some_getLast hne⟩

theorem lastWith_eq_none_iff : lastWith op cs = none ↔ ∀ c ∈ cs, c.operator ≠ op := by
  simp [lastWith]

/-- The last change that sets a field. -/
theorem exists_lastWith_set (h : .set n ∈ cs) :
    ∃ n', lastWith Assignment.set.native cs = some (.set n') := by
  obtain ⟨d, hd⟩ := exists_lastWith h
  obtain ⟨n', rfl⟩ := operator_eq_set_iff.1 (mem_of_lastWith hd).2
  exact ⟨n', hd⟩

/-- The last change that adds to a field. -/
theorem exists_lastWith_add (h : .add n ∈ cs) :
    ∃ n', lastWith Assignment.add.native cs = some (.add n') := by
  obtain ⟨d, hd⟩ := exists_lastWith h
  obtain ⟨n', rfl⟩ := operator_eq_add_iff.1 (mem_of_lastWith hd).2
  exact ⟨n', hd⟩

theorem lastAdded_of_lastWith (h : lastWith Assignment.add.native cs = some (.add n)) :
    lastAdded cs = n.toInt := by
  rw [lastAdded, h]
  rfl

theorem lastAdded_eq_zero (h : ∀ n, .add n ∉ cs) : lastAdded cs = 0 := by
  have hnone : lastWith Assignment.add.native cs = none := by
    rw [lastWith_eq_none_iff]
    intro c hc hop
    obtain ⟨n, rfl⟩ := operator_eq_add_iff.1 hop
    exact h n hc
  rw [lastAdded, hnone]
  rfl

/-! ### Runs -/

theorem run_append (cs ds : List Change) (v : Option Int) :
    run (cs ++ ds) v = run ds (run cs v) := List.foldl_append

theorem run_concat (cs : List Change) (d : Change) (v : Option Int) :
    run (cs ++ [d]) v = d.apply (run cs v) := run_append cs [d] v

theorem run_of_unset (h : ∀ c ∈ cs, c = .unset) (hne : cs ≠ []) : run cs v = none := by
  rw [← List.dropLast_concat_getLast hne, run_concat, h _ (List.getLast_mem hne)]
  rfl

/-- Without removals, a field that is there has the value that was set last and what was added
since. -/
theorem run_some (h : .unset ∉ cs) (base sum : Int) :
    run cs (some (base + sum)) =
      some (((lastWith Assignment.set.native cs).map operand).getD base + cs.foldl addTo sum) := by
  induction cs generalizing base sum with
  | nil => rfl
  | cons c cs ih =>
    have hrest : .unset ∉ cs := fun hmem => h (List.mem_cons_of_mem c hmem)
    rw [lastWith_cons]
    cases c with
    | set n =>
      -- The sum starts anew, on top of the value that is set.
      have hstep := ih hrest n.toInt 0
      rw [Int.add_zero] at hstep
      refine hstep.trans ?_
      rw [if_pos (by rfl)]
      cases lastWith Assignment.set.native cs with
      | none => rfl
      | some d => rfl
    | add n =>
      have hstep := ih hrest base (sum + n.toInt)
      rw [← Int.add_assoc] at hstep
      refine hstep.trans ?_
      rw [if_neg fun hop => by simp [operator_eq_set_iff] at hop, Option.or_none]
      rfl
    | unset => exact absurd List.mem_cons_self h

/-- An absent field is like one that holds zero, unless nothing changes it or removes it. -/
theorem run_eq_run_getD (h : .unset ∉ cs) (hne : cs ≠ []) :
    run cs v = run cs (some (v.getD 0)) := by
  cases cs with
  | nil => exact absurd rfl hne
  | cons c cs =>
    cases c with
    | set n => rfl
    | add n => rfl
    | unset => exact absurd List.mem_cons_self h

theorem run_of_set (h : .unset ∉ cs) (hset : lastWith Assignment.set.native cs = some (.set n)) :
    run cs v = some (n.toInt + addedInTheEnd cs) := by
  have hne : cs ≠ [] := List.ne_nil_of_mem (mem_of_lastWith hset).1
  have hrun := run_some h (v.getD 0) 0
  rw [hset, Int.add_zero] at hrun
  rw [run_eq_run_getD h hne, hrun]
  rfl

theorem run_of_add (h : .unset ∉ cs) (hset : ∀ n, .set n ∉ cs) (hne : cs ≠ []) :
    run cs v = some (v.getD 0 + addedInTheEnd cs) := by
  have hnone : lastWith Assignment.set.native cs = none := by
    rw [lastWith_eq_none_iff]
    intro c hc hop
    obtain ⟨n, rfl⟩ := operator_eq_set_iff.1 hop
    exact hset n hc
  have hrun := run_some h (v.getD 0) 0
  rw [hnone, Int.add_zero] at hrun
  rw [run_eq_run_getD h hne, hrun]
  rfl

/-- Additions of nothing come to nothing. -/
theorem addedInTheEnd_eq_zero (h : ∀ n, .add n ∈ cs → n.toInt = 0) : addedInTheEnd cs = 0 := by
  unfold addedInTheEnd
  induction cs with
  | nil => rfl
  | cons c cs ih =>
    have hstep : addTo 0 c = 0 := by
      cases c with
      | set n => rfl
      | add n => rw [addTo, h n List.mem_cons_self, Int.add_zero]
      | unset => rfl
    rw [List.foldl_cons, hstep]
    exact ih fun n hn => h n (List.mem_cons_of_mem c hn)

/-! ### Lists that collect a list -/

theorem apply_ne_none (h : d ≠ .unset) : d.apply v ≠ none := by
  cases d with
  | set n => exact Option.some_ne_none _
  | add n => exact Option.some_ne_none _
  | unset => exact absurd rfl h

namespace Collects

variable (h : Collects ds cs)

include h

theorem mem_of_mem (hd : d ∈ ds) : d ∈ cs := (mem_of_lastWith (h.mem_iff.1 hd)).1

theorem ne_nil (hne : cs ≠ []) : ds ≠ [] := by
  obtain ⟨c, hc⟩ := List.exists_mem_of_ne_nil cs hne
  obtain ⟨d, hd⟩ := exists_lastWith hc
  have hop := (mem_of_lastWith hd).2
  rw [← hop] at hd
  exact List.ne_nil_of_mem (h.mem_iff.2 hd)

theorem of_perm {es : List Change} (hperm : es.Perm ds) : Collects es cs :=
  ⟨(hperm.map operator).nodup_iff.2 h.operators, hperm.mem_iff.trans h.mem_iff⟩

/-- Both lists have the same last changes. -/
theorem lastWith_eq (op : String) : lastWith op ds = lastWith op cs := by
  cases hlast : lastWith op cs with
  | none =>
    rw [lastWith_eq_none_iff] at hlast ⊢
    exact fun d hd => hlast d (h.mem_of_mem hd)
  | some d =>
    have hop := (mem_of_lastWith hlast).2
    subst hop
    obtain ⟨d', hd'⟩ := exists_lastWith (h.mem_iff.2 hlast)
    obtain ⟨hmem, hop⟩ := mem_of_lastWith hd'
    have hlast' := h.mem_iff.1 hmem
    rw [hop, hlast] at hlast'
    rw [hd', hlast']

/-- Where all changes have one operator, the last of them is all that is kept. -/
theorem eq_singleton (hops : ∀ c ∈ cs, c.operator = op) (hd : lastWith op cs = some d) :
    ds = [d] := by
  have hall : ∀ d' ∈ ds, d' = d := by
    intro d' hd'
    have hlast := h.mem_iff.1 hd'
    rw [hops d' (h.mem_of_mem hd'), hd] at hlast
    exact (Option.some.inj hlast).symm
  have hops := h.operators
  cases ds with
  | nil => exact absurd rfl (h.ne_nil (List.ne_nil_of_mem (mem_of_lastWith hd).1))
  | cons x rest =>
    have hx := hall x List.mem_cons_self
    cases rest with
    | nil => rw [hx]
    | cons y rest =>
      have hy := hall y (List.mem_cons_of_mem x List.mem_cons_self)
      simp [hx, hy] at hops

end Collects

/-- Without a change that sets a field or removes it, every change adds. -/
theorem operator_eq_add (hunset : .unset ∉ cs) (hset : ∀ n, .set n ∉ cs) (hc : c ∈ cs) :
    c.operator = Assignment.add.native := by
  cases c with
  | set n => exact absurd hc (hset n)
  | add n => rfl
  | unset => exact absurd hc hunset

theorem exists_lastWith_of_add (hunset : .unset ∉ cs) (hset : ∀ n, .set n ∉ cs) (hne : cs ≠ []) :
    ∃ a, lastWith Assignment.add.native cs = some (.add a) := by
  obtain ⟨c, hc⟩ := List.exists_mem_of_ne_nil cs hne
  obtain ⟨a, rfl⟩ := operator_eq_add_iff.1 (operator_eq_add hunset hset hc)
  exact exists_lastWith_add hc

/-- What is collected does the same as a collectable list, in any order. -/
theorem run_eq_of_collects (hc : Collectable cs) (hd : Collects ds cs) : run ds v = run cs v := by
  by_cases hne : cs = []
  · subst hne
    have hnil : ds = [] := List.eq_nil_iff_forall_not_mem.2 fun d hmem =>
      List.not_mem_nil (hd.mem_of_mem hmem)
    rw [hnil]
  rcases hc with hunset | ⟨hunset, hsum, hzero⟩
  · rw [run_of_unset hunset hne,
      run_of_unset (fun d hmem => hunset d (hd.mem_of_mem hmem)) (hd.ne_nil hne)]
  have hunset' : .unset ∉ ds := fun hmem => hunset (hd.mem_of_mem hmem)
  by_cases hset : ∃ n, .set n ∈ cs
  · obtain ⟨n, hn⟩ := exists_lastWith_set hset.choose_spec
    have hlast : lastAdded cs = 0 := hzero hset
    have hadds : addedInTheEnd ds = 0 := by
      refine addedInTheEnd_eq_zero fun a ha => ?_
      rw [← lastAdded_of_lastWith (hd.mem_iff.1 ha), hlast]
    rw [run_of_set hunset hn, run_of_set hunset' ((hd.lastWith_eq _).trans hn), hadds, hsum, hlast]
  · have hset : ∀ n, .set n ∉ cs := fun n hn => hset ⟨n, hn⟩
    obtain ⟨a, hlast⟩ := exists_lastWith_of_add hunset hset hne
    have hsingle := hd.eq_singleton (fun c => operator_eq_add hunset hset) hlast
    rw [run_of_add hunset hset hne, hsum, lastAdded_of_lastWith hlast, hsingle]
    rfl

/-! ### Which lists are collectable -/

theorem collectable_singleton (c : Change) : Collectable [c] := by
  cases c with
  | set n =>
    have hlast : lastAdded [.set n] = 0 := lastAdded_eq_zero (by simp)
    exact .inr ⟨by simp, hlast.symm, fun _ => hlast⟩
  | add n => exact .inr ⟨by simp, Int.zero_add _, by simp⟩
  | unset => exact .inl fun c hc => List.mem_singleton.1 hc

section

variable (h : ∀ d, lastWith d.operator cs = some d →
  ∃ ds, Collects (ds ++ [d]) cs ∧ run (ds ++ [d]) v = run cs v)

include h

/-- A removal at the end leaves nothing, and any other change at the end leaves something. -/
theorem eq_unset_of_run_eq (hunset : .unset ∈ cs) (hc : c ∈ cs) : c = .unset := by
  refine Decidable.byContradiction fun hne => ?_
  obtain ⟨u, hu⟩ := exists_lastWith hunset
  obtain rfl := operator_eq_unset_iff.1 (mem_of_lastWith hu).2
  obtain ⟨ds, -, hnothing⟩ := h .unset hu
  obtain ⟨d, hd⟩ := exists_lastWith hc
  have hop := (mem_of_lastWith hd).2
  obtain ⟨es, -, hsomething⟩ := h d (hop ▸ hd)
  have hd' : d ≠ .unset := fun heq => hne (operator_eq_unset_iff.1 (hop ▸ heq ▸ rfl))
  rw [run_concat] at hnothing hsomething
  exact apply_ne_none hd' (hsomething.trans hnothing.symm)

/-- Where a field is set, the value that is set last is the final one. -/
theorem run_eq_of_lastWith_set (hn : lastWith Assignment.set.native cs = some (.set n)) :
    run cs v = some n.toInt := by
  obtain ⟨ds, -, hrun⟩ := h (.set n) hn
  rw [← hrun, run_concat]
  rfl

/-- Where a field is set, the last addition, which may come after, adds nothing. -/
theorem lastAdded_eq_zero_of_set (hunset : .unset ∉ cs)
    (hn : lastWith Assignment.set.native cs = some (.set n)) : lastAdded cs = 0 := by
  by_cases hadd : ∃ a, .add a ∈ cs
  · obtain ⟨a, ha⟩ := exists_lastWith_add hadd.choose_spec
    obtain ⟨ds, hd, hrun⟩ := h (.add a) ha
    have hunset' : .unset ∉ ds ++ [.add a] := fun hmem => hunset (hd.mem_of_mem hmem)
    have hnone : ∀ b, .add b ∉ ds := by
      intro b hb
      have hops := hd.operators
      rw [List.map_append, List.nodup_append] at hops
      exact hops.2.2 _ (List.mem_map_of_mem hb) _ List.mem_cons_self rfl
    have hzero : addedInTheEnd ds = 0 := addedInTheEnd_eq_zero fun b hb => absurd hb (hnone b)
    have hend : addedInTheEnd (ds ++ [.add a]) = a.toInt := by
      unfold addedInTheEnd at hzero ⊢
      rw [List.foldl_append, hzero]
      exact Int.zero_add _
    rw [run_of_set hunset' ((hd.lastWith_eq _).trans hn), hend, run_eq_of_lastWith_set h hn] at hrun
    rw [lastAdded_of_lastWith ha]
    have hvalue : n.toInt + a.toInt = n.toInt := Option.some.inj hrun
    omega
  · exact lastAdded_eq_zero fun a ha => hadd ⟨a, ha⟩

/-- A list is collectable if, for each change that is kept, an order of what is collected with that
change at the end does the same. -/
theorem collectable_of_run_eq : Collectable cs := by
  by_cases hunset : .unset ∈ cs
  · exact .inl fun c hc => eq_unset_of_run_eq h hunset hc
  refine .inr ⟨hunset, ?_⟩
  by_cases hset : ∃ n, .set n ∈ cs
  · obtain ⟨n, hn⟩ := exists_lastWith_set hset.choose_spec
    have hlast := lastAdded_eq_zero_of_set h hunset hn
    have hvalue : n.toInt + addedInTheEnd cs = n.toInt := Option.some.inj <|
      (run_of_set hunset hn).symm.trans (run_eq_of_lastWith_set h hn)
    exact ⟨by omega, fun _ => hlast⟩
  · have hset' : ∀ n, .set n ∉ cs := fun n hn => hset ⟨n, hn⟩
    refine ⟨?_, fun hex => absurd hex hset⟩
    by_cases hne : cs = []
    · rw [hne]
      rfl
    obtain ⟨a, hlast⟩ := exists_lastWith_of_add hunset hset' hne
    obtain ⟨ds, hd, hrun⟩ := h (.add a) hlast
    rw [hd.eq_singleton (fun c => operator_eq_add hunset hset') hlast,
      run_of_add hunset hset' hne] at hrun
    rw [lastAdded_of_lastWith hlast]
    have hvalue : v.getD 0 + a.toInt = v.getD 0 + addedInTheEnd cs := Option.some.inj hrun
    omega

end

end Change

end Docstore
