import Docstore.Proofs.Script.Loops
import Docstore.Proofs.Text.Numerals
import Docstore.Query.Predicate

/-!
# Wildcards as loops

A path with wildcards leads to a value for each choice of indices. The loops of an operand run
through these choices.

* `Path.Selects` : the value that a path leads to under a choice of indices, each of which lies
  within an array;
* `Query.script_compareFields_eq_ok_iff`, `Query.script_memberOf_eq_ok_iff` : which queries have a
  script, and which script;
* `Operand.unroll` : the loops of a path, by recursion on the path alone;
* `Operand.decides_nest` : when a body decides a property of the value of an operand, the loops
  around it decide whether some choice of indices has that property.
-/

namespace Docstore

/-- From an optional value the path leads to `value` when its wildcards take the indices of the
list, in order; each wildcard stands at an array that has an element at its index. -/
def Path.Selects : Path → Option Json → (choice : List Nat) → (value : Option Json) → Prop
  | [], found, choice, value => choice = [] ∧ value = found
  | .name key :: rest, found, choice, value =>
    Selects rest (found.bind (Json.get? key)) choice value
  | .index i :: rest, found, choice, value => Selects rest (found.bind (Json.at? i)) choice value
  | .any :: rest, found, choice, value =>
    ∃ items i more, found = some (.array items) ∧ i < items.length ∧ choice = i :: more ∧
      Selects rest items[i]? more value

/-- A path that has a chain is represented by it. -/
theorem ofPath?_of_fieldRef {p : Path} {ref : FieldRef} (h : fieldRef p = .ok ref) :
    FieldRef.ofPath? p = some ref := by
  rw [fieldRef] at h
  split at h
  · obtain rfl := Except.ok.inj h
    assumption
  · cases h

/-! ### Scripts of queries -/

namespace Query

variable {e : Entity} {field other array : Path} {s : Script}

/-- A comparison of fields has a script when both operands lead to nodes. -/
theorem script_compareFields_eq_ok_iff {op : Comparison} :
    (compareFields field op other).script e = .ok s ↔
      ∃ l r, e.root.resolve field = .ok l ∧ e.root.resolve other = .ok r ∧
        comparisonScript field l.node.isArray op other r.node.isArray = s := by
  simp only [script, bind_eq_ok_iff, pure_eq_ok_iff, exists_and_left]

/-- A membership has a script when its operands lead to nodes and have chains, and the values that
are searched for have equality. -/
theorem script_memberOf_eq_ok_iff {op : Membership} :
    (memberOf field op array).script e = .ok s ↔
      ∃ c a l r, e.root.resolve field = .ok c ∧
        c.node.scalarType?.any ScalarType.supportsEquality = true ∧
        e.root.resolve array = .ok a ∧ fieldRef field = .ok l ∧ fieldRef array = .ok r ∧
        membershipScript op l r = s := by
  rw [script, bind_eq_ok_iff]
  constructor
  · rintro ⟨c, hc, hs⟩
    split at hs
    · obtain ⟨a, ha, hs⟩ := bind_eq_ok_iff.1 hs
      obtain ⟨l, hl, hs⟩ := bind_eq_ok_iff.1 hs
      obtain ⟨r, hr, hs⟩ := bind_eq_ok_iff.1 hs
      exact ⟨c, a, l, r, hc, ‹_›, ha, hl, hr, pure_eq_ok_iff.1 hs⟩
    · cases hs
  · rintro ⟨c, a, l, r, hc, heq, ha, hl, hr, rfl⟩
    refine ⟨c, hc, ?_⟩
    rw [if_pos heq, ha, hl, hr]
    rfl

end Query

namespace Operand

/-! ### Unrolling -/

/-- The loops of a path below a chain when `k` loops are open already, and its chain in them. -/
def unroll (stem : String) : (k : Nat) → FieldRef → Path → Operand
  | _, ref, [] => ⟨[], ref⟩
  | k, ref, .any :: rest =>
    let v := stem ++ Text.natText k
    let below := unroll stem (k + 1) (ref.indexed v) rest
    ⟨⟨v, ref⟩ :: below.loops, below.ref⟩
  | k, ref, .index i :: rest => unroll stem k (ref ++ [.index i]) rest
  | k, ref, .name key :: rest => unroll stem k (ref ++ [.name key]) rest

theorem extend_eq_unroll (stem : String) (p : Path) (o : Operand) :
    extend stem p o =
      ⟨o.loops ++ (unroll stem o.loops.length o.ref p).loops,
        (unroll stem o.loops.length o.ref p).ref⟩ := by
  induction p generalizing o with
  | nil => simp [extend, unroll]
  | cons segment rest ih =>
    cases segment with
    | name key => rw [extend, ih, unroll]
    | index i => rw [extend, ih, unroll]
    | any =>
      rw [extend, ih]
      simp [unroll]

theorem ofPath_eq_unroll (stem : String) (p : Path) : ofPath stem p = unroll stem 0 [] p := by
  rw [ofPath, extend_eq_unroll]
  simp

/-- The variables of the loops of an operand. -/
def vars (o : Operand) : List String := o.loops.map Loop.var

variable {stem v : String} {k : Nat} {ref : FieldRef} {p : Path}

theorem unroll_var_of_mem_vars (h : v ∈ (unroll stem k ref p).vars) :
    ∃ n, k ≤ n ∧ v = stem ++ Text.natText n := by
  induction p generalizing k ref with
  | nil => simp [unroll, vars] at h
  | cons segment rest ih =>
    cases segment with
    | name key => exact ih h
    | index i => exact ih h
    | any =>
      rcases List.mem_cons.1 h with rfl | h
      · exact ⟨k, Nat.le_refl k, rfl⟩
      · obtain ⟨n, hn, rfl⟩ := ih h
        exact ⟨n, by omega, rfl⟩

/-- The chain of an operand has the variables of its loops, besides those it started with. -/
theorem var_mem_unroll_ref :
    .var v ∈ (unroll stem k ref p).ref ↔ .var v ∈ ref ∨ v ∈ (unroll stem k ref p).vars := by
  induction p generalizing k ref with
  | nil => simp [unroll, vars]
  | cons segment rest ih =>
    cases segment with
    | name key =>
      rw [unroll, ih]
      simp
    | index i =>
      rw [unroll, ih]
      simp
    | any =>
      simp only [unroll, ih, FieldRef.indexed, vars, List.map_cons, List.mem_append,
        List.mem_cons, List.not_mem_nil, false_or, Accessor.var.injEq, or_assoc]

theorem natText_injective {n m : Nat} (h : stem ++ Text.natText n = stem ++ Text.natText m) :
    n = m := by
  refine Text.natDigits_injective ?_
  simpa [Text.natText, String.toList_append] using congrArg String.toList h

/-! ### Nests of loops -/

theorem nest_append (outer inner : List Loop) (body : List Stmt) :
    nest (outer ++ inner) body = nest outer (nest inner body) := by
  induction outer with
  | nil => rfl
  | cons loop rest ih => simp [nest, ih]

theorem blockWrites_nest (loops : List Loop) (body : List Stmt) :
    Stmt.blockWrites (nest loops body) = loops.map Loop.var ++ Stmt.blockWrites body := by
  induction loops with
  | nil => rfl
  | cons loop rest ih => simp [nest, Stmt.blockWrites, Stmt.writes, ih]

theorem selects_any {rest : Path} {found : Option Json} {Q : Option Json → Prop} :
    (∃ items i, found = some (.array items) ∧ i < items.length ∧
        ∃ choice value, rest.Selects (found.bind (Json.at? i)) choice value ∧ Q value) ↔
      ∃ choice value, Path.Selects (.any :: rest) found choice value ∧ Q value := by
  constructor
  · rintro ⟨items, i, rfl, hi, choice, value, hsel, hQ⟩
    exact ⟨i :: choice, value, ⟨items, i, choice, rfl, hi, rfl, hsel⟩, hQ⟩
  · rintro ⟨_, value, ⟨items, i, more, rfl, hi, rfl, hsel⟩, hQ⟩
    exact ⟨items, i, rfl, hi, more, value, hsel, hQ⟩

/-- Loops around a body that decides a property of the operand's value decide whether some
choice of indices leads to a value with it. -/
theorem decides_nest {this : Json} {env : Script.Env} {found : Option Json} {body : List Stmt}
    {Q : Option Json → Prop} (hfound : ref.lookup env this = .ok found)
    (hfresh : ∀ v, .var v ∈ ref → ∀ n, k ≤ n → v ≠ stem ++ Text.natText n)
    (hwrites : (unroll stem k ref p).ref.FreeOf (Stmt.blockWrites body))
    (hbody : ∀ env₁ value,
      Script.AgreeOff ((unroll stem k ref p).vars ++ Stmt.blockWrites body) env env₁ →
        (unroll stem k ref p).ref.lookup env₁ this = .ok value →
          Stmt.Decides this body env₁ (Q value)) :
    Stmt.Decides this (nest (unroll stem k ref p).loops body) env
      (∃ choice value, p.Selects found choice value ∧ Q value) := by
  induction p generalizing k ref found env with
  | nil =>
    refine (hbody env found (.refl _ _) hfound).congr ⟨fun hQ => ⟨[], found, ⟨rfl, rfl⟩, hQ⟩, ?_⟩
    rintro ⟨_, _, ⟨rfl, rfl⟩, hQ⟩
    exact hQ
  | cons segment rest ih =>
    cases segment with
    | name key =>
      refine ih (FieldRef.lookup_name hfound key) ?_ hwrites hbody
      simpa using hfresh
    | index i =>
      refine ih (FieldRef.lookup_index hfound i) ?_ hwrites hbody
      simpa using hfresh
    | any =>
      refine (Stmt.decides_forEach hfound fun i env₁ hkept hi => ?_).congr selects_any
      rw [blockWrites_nest] at hkept
      -- The loops inside have later numbers, so they write none of the chain's variables.
      have hchain : ref.lookup env₁ this = .ok found := by
        refine (hkept.lookup fun u hu => ?_).trans hfound
        have huse : .var u ∈ (unroll stem k ref (.any :: rest)).ref :=
          var_mem_unroll_ref.2 (.inl hu)
        simp only [List.mem_cons, List.mem_append, not_or]
        refine ⟨hfresh u hu k (Nat.le_refl k), fun hin => ?_, hwrites u huse⟩
        obtain ⟨n, hn, hun⟩ := unroll_var_of_mem_vars hin
        exact hfresh u hu n (by omega) hun
      refine ih (FieldRef.lookup_indexed hchain hi) (fun u hu n hn hun => ?_) hwrites
        fun env₂ value hkept₂ hvalue => hbody env₂ value ?_ hvalue
      · rcases List.mem_append.1 hu with hu | hu
        · exact hfresh u hu n (by omega) hun
        · obtain rfl : u = stem ++ Text.natText k := by simpa using hu
          have := natText_injective hun
          omega
      · exact hkept.trans (hkept₂.mono (List.subset_cons_self _ _))

end Operand

end Docstore
