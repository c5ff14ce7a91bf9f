import Docstore.Proofs.Script.LooseOrder
import Docstore.Proofs.Script.Wildcards

/-!
# The meaning of field comparisons

The script of a comparison of two fields answers whether some choice of indices for the
wildcards of both paths leads to related values.

* `Comparison.Relates` : the relation of two operands, by which of them are whole arrays;
* `Json.Addressable` : the arrays of a document are short enough for the numbers of scripts;
* `decides_comparisonBody` : the statements for one choice of indices decide the relation;
* `run_compareFields_eq_true_iff` : the answer of the script.
-/

namespace Docstore

/-! ### Related operands -/

namespace Comparison

/-- Two whole arrays are related: they have one length and the comparison holds at every index.
They are different when their lengths are, or the elements at some index. -/
def RelatesArrays (op : Comparison) (left right : List Json) : Prop :=
  if op = .neq then
    left.length ≠ right.length ∨
      ∃ (i : Nat) (x y : Json), left[i]? = some x ∧ right[i]? = some y ∧ op.holds x y = true
  else
    left.length = right.length ∧
      ∀ (i : Nat) (x y : Json), left[i]? = some x → right[i]? = some y → op.holds x y = true

/-- The operands of a comparison are related. A whole array has to be an array, and is compared
with a single value element by element, in the direction that is written; a single value that is
missing is null. -/
def Relates (op : Comparison) (leftArray : Bool) (left : Option Json) (rightArray : Bool)
    (right : Option Json) : Prop :=
  match leftArray, rightArray with
  | false, false => op.holds (left.getD .null) (right.getD .null) = true
  | true, false =>
    ∃ items, left = some (.array items) ∧ ∀ x ∈ items, op.holds x (right.getD .null) = true
  | false, true =>
    ∃ items, right = some (.array items) ∧ ∀ y ∈ items, op.holds (left.getD .null) y = true
  | true, true =>
    ∃ items items', left = some (.array items) ∧ right = some (.array items') ∧
      op.RelatesArrays items items'

end Comparison

/-- The path leads to an array field of the entity, and not to an element of one. -/
def Entity.isWholeArray (e : Entity) (p : Path) : Bool :=
  (e.resolve? p).any fun c => c.node.isArray

/-! ### Sizes -/

namespace Json

mutual

/-- No array has more than `2 ^ 53` elements, the number up to which doubles count one by one. -/
def Addressable : Json → Prop
  | .array items => Double.HoldsInt items.length ∧ AllAddressable items
  | .object members => MembersAddressable members
  | _ => True

/-- Every element is addressable. -/
def AllAddressable : List Json → Prop
  | [] => True
  | item :: rest => Addressable item ∧ AllAddressable rest

/-- Every member is addressable. -/
def MembersAddressable : List (String × Json) → Prop
  | [] => True
  | (_, value) :: rest => Addressable value ∧ MembersAddressable rest

end

theorem AllAddressable.getElem? {items : List Json} (h : AllAddressable items) {i : Nat}
    {item : Json} (hi : items[i]? = some item) : item.Addressable := by
  induction items generalizing i with
  | nil => simp at hi
  | cons first rest ih =>
    cases i with
    | zero =>
      obtain rfl : first = item := by simpa using hi
      exact h.1
    | succ i => exact ih h.2 (by simpa using hi)

theorem MembersAddressable.get? {members : List (String × Json)} (h : MembersAddressable members)
    {key : String} {value : Json} (hget : Fields.get? key members = some value) :
    value.Addressable := by
  induction members with
  | nil => simp [Fields.get?] at hget
  | cons member rest ih =>
    obtain ⟨name, first⟩ := member
    rw [Fields.get?] at hget
    split at hget
    · obtain rfl : first = value := by simpa using hget
      exact h.1
    · exact ih h.2 hget

theorem Addressable.get? {d value : Json} (h : d.Addressable) {key : String}
    (hget : d.get? key = some value) : value.Addressable := by
  cases d with
  | object members => exact MembersAddressable.get? h hget
  | _ => simp [Json.get?] at hget

theorem Addressable.at? {d value : Json} (h : d.Addressable) {i : Nat}
    (hat : d.at? i = some value) : value.Addressable := by
  cases d with
  | array items => exact AllAddressable.getElem? h.2 hat
  | _ => simp [Json.at?] at hat

end Json

/-- What a chain leads to in an addressable document is addressable. -/
theorem FieldRef.followFrom_addressable {env : Script.Env} {whole ref : FieldRef}
    {current d : Json} (h : FieldRef.followFrom env whole ref current = .ok (some d))
    (hcurrent : current.Addressable) : d.Addressable := by
  induction ref generalizing current with
  | nil =>
    obtain rfl : current = d := by simpa [followFrom] using h
    exact hcurrent
  | cons a rest ih =>
    obtain ⟨below, hstep, h⟩ := bind_eq_ok_iff.1 h
    cases below with
    | none => cases h
    | some below =>
      refine ih h ?_
      cases a with
      | name key => exact hcurrent.get? (Except.ok.inj hstep)
      | index i => exact hcurrent.at? (Except.ok.inj hstep)
      | var v =>
        simp only [Accessor.step] at hstep
        split at hstep
        · cases hstep
        · split at hstep
          · cases hstep
          · exact hcurrent.at? (Except.ok.inj hstep)

/-! ### One choice of indices -/

open Script (AgreeOff)

variable {this : Json} {env : Script.Env} {op : Comparison} {l r : FieldRef}
  {left right : Option Json} {flag : String}

/-- The variables of the statements for one choice of indices. -/
def scratch : List String := [elementVar, "allEq", "allOk"]

theorem blockWrites_scan_subset (hflag : flag ∈ scratch) (array : FieldRef) (mismatch : Expr) :
    Stmt.blockWrites (scan flag array mismatch) ⊆ scratch := by
  intro v hv
  simp only [scan, Stmt.when, Stmt.blockWrites, Stmt.writes, List.append_nil, List.cons_append,
    List.nil_append, List.mem_cons, List.not_mem_nil, or_false] at hv
  rcases hv with rfl | rfl | rfl
  · exact hflag
  · exact List.mem_cons_self
  · exact hflag

theorem blockWrites_append (first second : List Stmt) :
    Stmt.blockWrites (first ++ second) = Stmt.blockWrites first ++ Stmt.blockWrites second := by
  induction first with
  | nil => rfl
  | cons s rest ih => simp [Stmt.blockWrites, ih]

theorem blockWrites_comparisonBody (op : Comparison) (l : FieldRef) (leftArray : Bool)
    (r : FieldRef) (rightArray : Bool) :
    Stmt.blockWrites (comparisonBody op l leftArray r rightArray) ⊆ scratch := by
  have hscalar : ∀ op a b, Stmt.blockWrites (scalarArray op a b) ⊆ scratch := by
    intro op a b
    rw [scalarArray, blockWrites_append]
    exact List.append_subset.2
      ⟨blockWrites_scan_subset (by simp [scratch]) _ _, List.nil_subset _⟩
  cases leftArray <;> cases rightArray
  · exact List.nil_subset _
  · exact hscalar op l r
  · exact hscalar op.flip r l
  · have hflag : (if op.isEquality then "allEq" else "allOk") ∈ scratch := by
      split <;> simp [scratch]
    simp only [comparisonBody, arrayArray, Stmt.blockWrites, Stmt.writes, blockWrites_append,
      List.append_nil]
    refine List.append_subset.2
      ⟨List.append_subset.2 ⟨blockWrites_scan_subset hflag _ _, List.nil_subset _⟩, ?_⟩
    split <;> exact List.nil_subset _

theorem runBlock_when {cond : Expr} {b : Bool} (hcond : cond.eval env this = .ok (.bool b))
    (yes : List Stmt) :
    Stmt.runBlock this [.when cond yes] env =
      if b then Stmt.runBlock this yes env else .ok (.next, env) := by
  rw [Stmt.runBlock_singleton]
  simp only [Stmt.when, Stmt.run, hcond]
  cases b <;> rfl

theorem decides_when {cond : Expr} {b : Bool} (hcond : cond.eval env this = .ok (.bool b)) :
    Stmt.Decides this [.when cond [.resultBool true]] env (b = true) := by
  intro flow env' h
  rw [runBlock_when hcond] at h
  cases b with
  | true =>
    simp only [if_true, Stmt.runBlock_singleton, Stmt.resultBool, Stmt.run, Expr.eval] at h
    obtain ⟨rfl, -⟩ := Prod.mk.injEq _ _ _ _ ▸ Except.ok.inj h
    exact .inl ⟨rfl, rfl⟩
  | false =>
    obtain ⟨rfl, -⟩ := Prod.mk.injEq _ _ _ _ ▸ Except.ok.inj h
    exact .inr ⟨rfl, by simp⟩

theorem eval_field (h : l.lookup env this = .ok left) :
    (Expr.field l).eval env this = .ok (left.getD .null) := by
  rw [Expr.eval, h]
  rfl

theorem eval_compare {x y : Json} {e e' : Expr} (hx : e.eval env this = .ok x)
    (hy : e'.eval env this = .ok y) :
    (Expr.compare op e e').eval env this = .ok (.bool (op.holds x y)) := by
  rw [Expr.eval, hx, hy]
  rfl

theorem eval_not {e : Expr} {b : Bool} (he : e.eval env this = .ok (.bool b)) :
    (Expr.not e).eval env this = .ok (.bool !b) := by
  rw [Expr.eval, he]
  rfl

theorem eval_var {b : Bool} (h : env.get? flag = some (.bool b)) :
    (Expr.var flag).eval env this = .ok (.bool b) := by
  rw [Expr.eval, h]

/-- The flag behind a scan tells whether no element is a mismatch. -/
theorem runBlock_scan {array : FieldRef} {mismatch : Expr} {items : List Json} {m : Nat → Bool}
    (hscratch : flag ∈ scratch) (hflag : flag ≠ elementVar)
    (hitems : array.lookup env this = .ok (some (.array items))) (hfree : array.FreeOf scratch)
    (hm : ∀ (i : Nat) env₁, AgreeOff scratch env env₁ →
      Fields.get? elementVar env₁ = some (.int i) → mismatch.eval env₁ this = .ok (.bool (m i))) :
    ∃ env', Stmt.runBlock this (scan flag array mismatch) env = .ok (.next, env') ∧
      Fields.get? flag env' = some (.bool (decide (∀ i < items.length, m i = false))) := by
  have hset : AgreeOff scratch env (env.insert flag (.bool true)) :=
    (AgreeOff.refl _ env).insert hscratch _
  have hcount : array.count (env.insert flag (.bool true)) this = .ok items.length :=
    FieldRef.count_eq_ok_iff.2 ⟨items, (hset.lookup hfree).trans hitems, rfl⟩
  let body := fun (i : Nat) (env : Script.Env) =>
    Stmt.runBlock this [.when mismatch [.assign flag (.bool false), .leave]]
      (env.insert elementVar (.int i))
  have hround : ∀ (i : Nat) env₁, AgreeOff scratch env env₁ →
      body i env₁ = if m i then
        .ok (.leave, (Fields.insert elementVar (.int i) env₁).insert flag (.bool false))
        else .ok (.next, Fields.insert elementVar (.int i) env₁) := by
    intro i env₁ hkept
    have hi := hkept.insert (List.mem_cons_self : elementVar ∈ scratch) (.int i)
    exact runBlock_when (hm i _ hi (Fields.get?_insert_self _ _ _)) _
  -- Before each round the flag is still set; after the round that is left it is not.
  obtain ⟨env', hloop, hend⟩ := @Stmt.loopFrom_until body m
    (fun env₁ => AgreeOff scratch env env₁ ∧ Fields.get? flag env₁ = some (.bool true))
    (fun env₁ => Fields.get? flag env₁ = some (.bool false))
    (fun i env₁ hInv hmi => ⟨_, (hround i env₁ hInv.1).trans (by rw [hmi]; rfl),
      hInv.1.insert List.mem_cons_self _, by rw [Fields.get?_insert_of_ne hflag.symm, hInv.2]⟩)
    (fun i env₁ hInv hmi => ⟨_, (hround i env₁ hInv.1).trans (by rw [hmi]; rfl),
      Fields.get?_insert_self _ _ _⟩)
    items.length 0 _ ⟨hset, Fields.get?_insert_self _ _ _⟩
  refine ⟨env', ?_, ?_⟩
  · change Stmt.runBlock this [.forEach elementVar array _] (env.insert flag (.bool true)) = _
    rw [Stmt.runBlock_singleton, Stmt.run, hcount]
    exact hloop
  · rcases hend with ⟨hall, -, hset⟩ | ⟨⟨i, -, hi, hmi⟩, hclear⟩
    · have hnone : ∀ i < items.length, m i = false := fun i hi => hall i (Nat.zero_le i) (by omega)
      rw [hset, decide_eq_true hnone]
    · have hsome : ¬ ∀ i < items.length, m i = false := fun hnone => by
        rw [hnone i (by omega)] at hmi
        cases hmi
      rw [hclear, decide_eq_false hsome]

/-- A scan and a test of its flag. -/
theorem decides_scan_when {array : FieldRef} {mismatch verdict : Expr} {items : List Json}
    {m : Nat → Bool} {f : Bool → Bool} (hscratch : flag ∈ scratch) (hflag : flag ≠ elementVar)
    (hitems : array.lookup env this = .ok (some (.array items))) (hfree : array.FreeOf scratch)
    (hm : ∀ (i : Nat) env₁, AgreeOff scratch env env₁ →
      Fields.get? elementVar env₁ = some (.int i) → mismatch.eval env₁ this = .ok (.bool (m i)))
    (hverdict : ∀ env₁ b, Fields.get? flag env₁ = some (.bool b) →
      verdict.eval env₁ this = .ok (.bool (f b))) :
    Stmt.Decides this (scan flag array mismatch ++ [.when verdict [.resultBool true]]) env
      (f (decide (∀ i < items.length, m i = false)) = true) := by
  obtain ⟨env₁, hscan, hget⟩ := runBlock_scan hscratch hflag hitems hfree hm
  intro flow env' h
  rw [Stmt.runBlock_append, hscan] at h
  exact decides_when (hverdict env₁ _ hget) flow env' h

/-- A scan goes through only when it is over an array. -/
theorem array_of_runBlock_scan {array : FieldRef} {mismatch : Expr} {rest : List Stmt}
    {ended : Flow × Script.Env} (hscratch : flag ∈ scratch) (hfree : array.FreeOf scratch)
    (h : Stmt.runBlock this (scan flag array mismatch ++ rest) env = .ok ended) :
    ∃ items, array.lookup env this = .ok (some (.array items)) := by
  obtain ⟨⟨_, env₁⟩, hdeclare, h⟩ := bind_eq_ok_iff.1 h
  obtain ⟨rfl, rfl⟩ : Flow.next = _ ∧ env.insert flag (.bool true) = env₁ :=
    Prod.mk.injEq _ _ _ _ ▸ Except.ok.inj hdeclare
  obtain ⟨_, hloop, -⟩ := bind_eq_ok_iff.1 h
  obtain ⟨_, hcount, -⟩ := bind_eq_ok_iff.1 hloop
  obtain ⟨items, hitems, -⟩ := FieldRef.count_eq_ok_iff.1 hcount
  have hset : AgreeOff scratch env (env.insert flag (.bool true)) :=
    (AgreeOff.refl _ env).insert hscratch _
  exact ⟨items, (hset.lookup hfree).symm.trans hitems⟩

/-- The element of an array whose index the element variable holds. -/
theorem eval_element {array : FieldRef} {items : List Json} {env₁ : Script.Env} {i : Nat}
    (hitems : array.lookup env this = .ok (some (.array items))) (hfree : array.FreeOf scratch)
    (hkept : AgreeOff scratch env env₁) (hi : Fields.get? elementVar env₁ = some (.int i)) :
    (Expr.field (array.indexed elementVar)).eval env₁ this = .ok (items[i]?.getD .null) :=
  eval_field (FieldRef.lookup_indexed ((hkept.lookup hfree).trans hitems) hi)

/-- The statements that compare a single value with every element of an array. -/
theorem decides_scalarArray (hl : l.lookup env this = .ok left)
    (hr : r.lookup env this = .ok right) (hlfree : l.FreeOf scratch) (hrfree : r.FreeOf scratch) :
    Stmt.Decides this (scalarArray op l r) env
      (∃ items, right = some (.array items) ∧
        ∀ y ∈ items, op.holds (left.getD .null) y = true) := by
  intro flow env' h
  have hscratch : "allOk" ∈ scratch := by simp [scratch]
  obtain ⟨items, hitems⟩ := array_of_runBlock_scan hscratch hrfree h
  obtain rfl : right = some (.array items) := Except.ok.inj (hr.symm.trans hitems)
  let m := fun (i : Nat) => !op.holds (left.getD .null) (items[i]?.getD .null)
  have hm : ∀ (i : Nat) env₁, AgreeOff scratch env env₁ →
      Fields.get? elementVar env₁ = some (.int i) →
        (Expr.not (.compare op (.field l) (.field (r ++ [.var elementVar])))).eval env₁ this =
          .ok (.bool (m i)) := fun i env₁ hkept hi =>
    eval_not (eval_compare (eval_field ((hkept.lookup hlfree).trans hl))
      (eval_element hr hrfree hkept hi))
  have hverdict : ∀ env₁ b, Fields.get? "allOk" env₁ = some (.bool b) →
      (Expr.var "allOk").eval env₁ this = .ok (.bool (id b)) := fun env₁ b hb => eval_var hb
  have hscan := decides_scan_when hscratch (by decide) hr hrfree hm hverdict
  refine hscan.congr ?_ flow env' h
  simp only [id, m, decide_eq_true_eq, Bool.not_eq_false']
  constructor
  · intro hall
    refine ⟨items, rfl, fun y hy => ?_⟩
    obtain ⟨i, hi, rfl⟩ := List.mem_iff_getElem.1 hy
    simpa [hi] using hall i hi
  · rintro ⟨items', hsame, hall⟩ i hi
    obtain rfl : items = items' := by simpa using hsame
    simpa [hi] using hall _ (List.getElem_mem hi)

/-- The condition that two arrays have one length. -/
theorem eval_sameLength {items items' : List Json}
    (hl : l.lookup env this = .ok (some (.array items)))
    (hr : r.lookup env this = .ok (some (.array items')))
    (hleft : Double.HoldsInt items.length) (hright : Double.HoldsInt items'.length) :
    (Expr.compare .eq (.length l) (.length r)).eval env this =
      .ok (.bool (decide (items.length = items'.length))) := by
  have hcount : l.count env this = .ok items.length := FieldRef.count_eq_ok_iff.2 ⟨_, hl, rfl⟩
  have hcount' : r.count env this = .ok items'.length := FieldRef.count_eq_ok_iff.2 ⟨_, hr, rfl⟩
  have hlength : (Expr.length l).eval env this = .ok (.int items.length) := by
    rw [Expr.eval, hcount]
    rfl
  have hlength' : (Expr.length r).eval env this = .ok (.int items'.length) := by
    rw [Expr.eval, hcount']
    rfl
  rw [eval_compare hlength hlength', Comparison.eq_holds_int hleft hright]
  simp only [Int.natCast_inj]

/-- What the statements of two whole arrays count as a mismatch at an index. -/
def mismatchAt (op : Comparison) (items items' : List Json) (i : Nat) : Bool :=
  if op.isEquality then Comparison.neq.holds (items[i]?.getD .null) (items'[i]?.getD .null)
  else !op.holds (items[i]?.getD .null) (items'[i]?.getD .null)

theorem relatesArrays_iff {items items' : List Json} (hop : op ≠ .neq)
    (hlength : items.length = items'.length) :
    op.RelatesArrays items items' ↔ ∀ i < items.length, mismatchAt op items items' i = false := by
  have hmismatch : ∀ i, mismatchAt op items items' i =
      !op.holds (items[i]?.getD .null) (items'[i]?.getD .null) := by
    intro i
    cases op <;> first | rfl | exact absurd rfl hop
  simp only [Comparison.RelatesArrays, if_neg hop, hlength, true_and, hmismatch,
    Bool.not_eq_false']
  constructor
  · intro hall i hi
    have hi' : i < items.length := by omega
    simpa [hi, hi'] using hall i items[i] items'[i] (by simp [hi']) (by simp [hi])
  · intro hall i x y hx hy
    obtain ⟨hi, rfl⟩ := List.getElem?_eq_some_iff.1 hx
    obtain ⟨hi', rfl⟩ := List.getElem?_eq_some_iff.1 hy
    simpa [hi, hi'] using hall i hi'

theorem relatesArrays_neq_iff {items items' : List Json}
    (hlength : items.length = items'.length) :
    Comparison.neq.RelatesArrays items items' ↔
      ¬ ∀ i < items.length, mismatchAt .neq items items' i = false := by
  have heq : Comparison.eq.RelatesArrays items items' ↔ _ := relatesArrays_iff (by decide) hlength
  simp only [Comparison.RelatesArrays, hlength, ne_eq, not_true_eq_false, false_or]
  constructor
  · rintro ⟨i, x, y, hx, hy, hne⟩ hall
    obtain ⟨hi, rfl⟩ := List.getElem?_eq_some_iff.1 hx
    obtain ⟨hi', rfl⟩ := List.getElem?_eq_some_iff.1 hy
    have hfalse := hall i hi'
    simp only [mismatchAt, Comparison.isEquality, hi, hi', getElem?_pos, Option.getD_some,
      hne] at hfalse
    cases hfalse
  · intro hsome
    simp only [Classical.not_forall] at hsome
    obtain ⟨i, hi', hm⟩ := hsome
    have hi : i < items.length := by omega
    refine ⟨i, items[i], items'[i], by simp [hi], by simp [hi'], ?_⟩
    simpa [mismatchAt, Comparison.isEquality, hi, hi'] using hm

/-- The statements that compare two whole arrays. -/
theorem decides_arrayArray {items items' : List Json}
    (hl : l.lookup env this = .ok (some (.array items)))
    (hr : r.lookup env this = .ok (some (.array items')))
    (hlfree : l.FreeOf scratch) (hrfree : r.FreeOf scratch)
    (hleft : Double.HoldsInt items.length) (hright : Double.HoldsInt items'.length) :
    Stmt.Decides this (arrayArray op l r) env (op.RelatesArrays items items') := by
  intro flow env' h
  rw [arrayArray, Stmt.runBlock_singleton, Stmt.run, eval_sameLength hl hr hleft hright] at h
  have hmismatch : ∀ (i : Nat) env₁, AgreeOff scratch env env₁ →
      Fields.get? elementVar env₁ = some (.int i) →
        (if op.isEquality then
            Expr.compare .neq (.field (l.indexed elementVar)) (.field (r.indexed elementVar))
          else .not (.compare op (.field (l.indexed elementVar))
            (.field (r.indexed elementVar)))).eval env₁ this =
          .ok (.bool (mismatchAt op items items' i)) := by
    intro i env₁ hkept hi
    have hx := eval_element hl hlfree hkept hi
    have hy := eval_element hr hrfree hkept hi
    unfold mismatchAt
    split
    · exact eval_compare hx hy
    · exact eval_not (eval_compare hx hy)
  have hscratch : (if op.isEquality then "allEq" else "allOk") ∈ scratch := by
    split <;> simp [scratch]
  have hflag : (if op.isEquality then "allEq" else "allOk") ≠ elementVar := by
    split <;> decide
  by_cases hlength : items.length = items'.length
  · rw [decide_eq_true hlength] at h
    by_cases hop : op = .neq
    · subst hop
      refine (decides_scan_when (f := not) hscratch hflag hl hlfree hmismatch
        fun env₁ b hb => eval_not (eval_var hb)).congr ?_ flow env' h
      rw [relatesArrays_neq_iff hlength]
      simp
    · simp only [if_neg hop] at h
      refine (decides_scan_when (f := id) hscratch hflag hl hlfree hmismatch
        fun env₁ b hb => eval_var hb).congr ?_ flow env' h
      rw [relatesArrays_iff hop hlength]
      simp
  · -- No element is looked at.
    rw [decide_eq_false hlength] at h
    by_cases hop : op = .neq
    · subst hop
      obtain ⟨rfl, -⟩ : Flow.result true = flow ∧ env = env' :=
        Prod.mk.injEq _ _ _ _ ▸ Except.ok.inj h
      exact .inl ⟨rfl, .inl hlength⟩
    · simp only [if_neg hop] at h
      obtain ⟨rfl, -⟩ : Flow.next = flow ∧ env = env' :=
        Prod.mk.injEq _ _ _ _ ▸ Except.ok.inj h
      refine .inr ⟨rfl, fun hrel => ?_⟩
      rw [Comparison.RelatesArrays, if_neg hop] at hrel
      exact hlength hrel.1

/-- Statements that compare two whole arrays go through only for arrays. -/
theorem arrays_of_runBlock_arrayArray {ended : Flow × Script.Env}
    (h : Stmt.runBlock this (arrayArray op l r) env = .ok ended) :
    ∃ items items', l.lookup env this = .ok (some (.array items)) ∧
      r.lookup env this = .ok (some (.array items')) := by
  rw [arrayArray, Stmt.runBlock_singleton] at h
  obtain ⟨_, hcond, -⟩ := bind_eq_ok_iff.1 h
  obtain ⟨_, hleft, hcond⟩ := bind_eq_ok_iff.1 hcond
  obtain ⟨_, hright, -⟩ := bind_eq_ok_iff.1 hcond
  obtain ⟨_, hcount, -⟩ := bind_eq_ok_iff.1 hleft
  obtain ⟨_, hcount', -⟩ := bind_eq_ok_iff.1 hright
  obtain ⟨items, hitems, -⟩ := FieldRef.count_eq_ok_iff.1 hcount
  obtain ⟨items', hitems', -⟩ := FieldRef.count_eq_ok_iff.1 hcount'
  exact ⟨items, items', hitems, hitems'⟩

/-- The statements for one choice of indices. -/
theorem decides_comparisonBody {leftArray rightArray : Bool} (hl : l.lookup env this = .ok left)
    (hr : r.lookup env this = .ok right) (hlfree : l.FreeOf scratch) (hrfree : r.FreeOf scratch)
    (hleft : ∀ d, left = some d → d.Addressable)
    (hright : ∀ d, right = some d → d.Addressable) :
    Stmt.Decides this (comparisonBody op l leftArray r rightArray) env
      (op.Relates leftArray left rightArray right) := by
  cases leftArray <;> cases rightArray
  · exact decides_when (eval_compare (eval_field hl) (eval_field hr))
  · exact decides_scalarArray hl hr hlfree hrfree
  · refine Stmt.Decides.congr (decides_scalarArray hr hl hrfree hlfree) ?_
    simp only [Comparison.holds_flip, Comparison.Relates]
  · intro flow env' h
    obtain ⟨items, items', hitems, hitems'⟩ := arrays_of_runBlock_arrayArray h
    obtain rfl : left = some (.array items) := Except.ok.inj (hl.symm.trans hitems)
    obtain rfl : right = some (.array items') := Except.ok.inj (hr.symm.trans hitems')
    refine (decides_arrayArray hl hr hlfree hrfree (hleft _ rfl).1 (hright _ rfl).1).congr ?_
      flow env' h
    refine ⟨fun hrel => ⟨items, items', rfl, rfl, hrel⟩, ?_⟩
    rintro ⟨_, _, ⟨rfl⟩, ⟨rfl⟩, hrel⟩
    exact hrel

/-! ### All choices of indices -/

theorem loopVar_not_mem_scratch {stem v : String} (hstem : stem ∈ ["l", "r", "i"])
    {k : Nat} {ref : FieldRef} {p : Path} (hv : v ∈ (Operand.unroll stem k ref p).vars) :
    v ∉ scratch := by
  obtain ⟨n, -, rfl⟩ := Operand.unroll_var_of_mem_vars hv
  intro hmem
  have hne := Text.natDigits_ne_nil n
  simp only [scratch, List.mem_cons, List.not_mem_nil, or_false] at hmem hstem
  rcases hstem with rfl | rfl | rfl <;> rcases hmem with h | h | h <;>
    simpa [elementVar, Text.natText, hne] using congrArg String.toList h

theorem loopVar_ne {v : String} {k k' : Nat} {ref ref' : FieldRef} {p p' : Path}
    (hv : v ∈ (Operand.unroll "r" k ref p).vars) :
    v ∉ (Operand.unroll "l" k' ref' p').vars := by
  intro hv'
  obtain ⟨n, -, rfl⟩ := Operand.unroll_var_of_mem_vars hv
  obtain ⟨m, -, h⟩ := Operand.unroll_var_of_mem_vars hv'
  simpa [Text.natText] using congrArg String.toList h

/-- A path without wildcards opens no loop. -/
theorem vars_unroll_of_any_eq_false {stem : String} {k : Nat} {ref : FieldRef} {p : Path}
    (h : p.any Segment.isAny = false) : (Operand.unroll stem k ref p).vars = [] := by
  induction p generalizing ref with
  | nil => rfl
  | cons segment rest ih =>
    simp only [List.any_cons, Bool.or_eq_false_iff] at h
    cases segment with
    | name key => exact ih h.2
    | index i => exact ih h.2
    | any => cases h.1

/-- The loops of both operands around the statements for one choice of indices. -/
theorem decides_operands {lstem rstem : String} {field other : Path} {leftArray rightArray : Bool}
    (hlstem : lstem ∈ ["l", "r", "i"]) (hrstem : rstem ∈ ["l", "r", "i"])
    (hapart : ∀ v, v ∈ (Operand.unroll rstem 0 [] other).vars →
      v ∉ (Operand.unroll lstem 0 [] field).vars) (hd : this.Addressable) :
    Stmt.Decides this
      (Operand.nest ((Operand.unroll rstem 0 [] other).loops ++
          (Operand.unroll lstem 0 [] field).loops)
        (comparisonBody op (Operand.unroll lstem 0 [] field).ref leftArray
          (Operand.unroll rstem 0 [] other).ref rightArray)) env
      (∃ choice' right, other.Selects (some this) choice' right ∧
        ∃ choice left, field.Selects (some this) choice left ∧
          op.Relates leftArray left rightArray right) := by
  -- The variables of a chain that starts at the document are those of its loops.
  have hvars : ∀ {stem v p}, .var v ∈ (Operand.unroll stem 0 [] p).ref →
      v ∈ (Operand.unroll stem 0 [] p).vars := fun h =>
    (Operand.var_mem_unroll_ref.1 h).resolve_left List.not_mem_nil
  have hlfree : (Operand.unroll lstem 0 [] field).ref.FreeOf scratch := fun v hv =>
    loopVar_not_mem_scratch hlstem (hvars hv)
  have hrfree : (Operand.unroll rstem 0 [] other).ref.FreeOf scratch := fun v hv =>
    loopVar_not_mem_scratch hrstem (hvars hv)
  have hbody := blockWrites_comparisonBody op (Operand.unroll lstem 0 [] field).ref leftArray
    (Operand.unroll rstem 0 [] other).ref rightArray
  have hrkept : (Operand.unroll rstem 0 [] other).ref.FreeOf
      ((Operand.unroll lstem 0 [] field).vars ++ Stmt.blockWrites
        (comparisonBody op (Operand.unroll lstem 0 [] field).ref leftArray
          (Operand.unroll rstem 0 [] other).ref rightArray)) := fun v hv hmem => by
    rcases List.mem_append.1 hmem with hmem | hmem
    · exact hapart v (hvars hv) hmem
    · exact hrfree v hv (hbody hmem)
  rw [Operand.nest_append]
  -- The loops of the right operand stand outside, and what they set must survive those inside.
  refine Operand.decides_nest rfl (fun v hv => absurd hv List.not_mem_nil) ?_
    fun env₁ right _ hright => ?_
  · rw [Operand.blockWrites_nest]
    exact hrkept
  refine Operand.decides_nest rfl (fun v hv => absurd hv List.not_mem_nil)
    (fun v hv hmem => hlfree v hv (hbody hmem)) fun env₂ left hkept hleft => ?_
  refine decides_comparisonBody hleft ((hkept.lookup hrkept).trans hright) hlfree hrfree ?_ ?_
  · rintro d rfl
    exact FieldRef.followFrom_addressable hleft hd
  · rintro d rfl
    exact FieldRef.followFrom_addressable hright hd

/-- The answer of a script that ends with `false` behind statements that decide a property. -/
theorem run_eq_true_iff {body : List Stmt} {P : Prop} {b : Bool}
    (hbody : Stmt.Decides this body [] P)
    (hrun : Script.run ⟨body ++ [.resultBool false]⟩ this = .ok b) : b = true ↔ P := by
  obtain ⟨⟨flow, env'⟩, h, hb⟩ := bind_eq_ok_iff.1 hrun
  rw [Stmt.runBlock_append] at h
  obtain ⟨⟨flow₁, env₁⟩, hfirst, hlast⟩ := bind_eq_ok_iff.1 h
  rcases hbody _ _ hfirst with ⟨rfl, hP⟩ | ⟨rfl, hP⟩
  · obtain ⟨rfl, -⟩ : Flow.result true = flow ∧ env₁ = env' :=
      Prod.mk.injEq _ _ _ _ ▸ Except.ok.inj hlast
    obtain rfl : true = b := Except.ok.inj hb
    simp [hP]
  · obtain ⟨rfl, -⟩ : Flow.result false = flow ∧ env₁ = env' :=
      Prod.mk.injEq _ _ _ _ ▸ Except.ok.inj hlast
    obtain rfl : false = b := Except.ok.inj hb
    simp [hP]

theorem isWholeArray_of_resolve {e : Entity} {p : Path} {c : Cursor}
    (h : e.root.resolve p = .ok c) : e.isWholeArray p = c.node.isArray := by
  rw [Cursor.resolve] at h
  cases hfollow : e.root.follow? p with
  | none => simp [hfollow] at h
  | some c' =>
    obtain rfl : c' = c := by simpa [hfollow] using h
    simp [Entity.isWholeArray, Entity.resolve?, hfollow]

/-- With wildcards on one side only, the other operand has no loop variables. -/
theorem decides_comparisonScript (field : Path) (leftArray : Bool) (op : Comparison)
    (other : Path) (rightArray : Bool) (hd : this.Addressable) :
    ∃ body, comparisonScript field leftArray op other rightArray =
        ⟨body ++ [.resultBool false]⟩ ∧
      Stmt.Decides this body [] (∃ choice' right, other.Selects (some this) choice' right ∧
        ∃ choice left, field.Selects (some this) choice left ∧
          op.Relates leftArray left rightArray right) := by
  refine ⟨_, rfl, ?_⟩
  simp only [Operand.ofPath_eq_unroll]
  cases hfield : field.any Segment.isAny with
  | false =>
    refine decides_operands (by simp) (by simp) (fun v _ => ?_) hd
    rw [vars_unroll_of_any_eq_false hfield]
    exact List.not_mem_nil
  | true =>
    cases hother : other.any Segment.isAny with
    | false =>
      refine decides_operands (by simp) (by simp) (fun v hv => ?_) hd
      rw [vars_unroll_of_any_eq_false hother] at hv
      exact absurd hv List.not_mem_nil
    | true => exact decides_operands (by simp) (by simp) (fun v hv => loopVar_ne hv) hd

/-- The script of a comparison of two fields answers `true` when some choice of indices for the
wildcards of both paths leads to related values, and `false` when none does. -/
theorem run_compareFields_eq_true_iff {e : Entity} {field other : Path} {op : Comparison}
    {s : Script} {d : Json} {b : Bool} (hs : (Query.compareFields field op other).script e = .ok s)
    (hd : d.Addressable) (hrun : s.run d = .ok b) :
    b = true ↔ ∃ choice left choice' right,
      field.Selects (some d) choice left ∧ other.Selects (some d) choice' right ∧
        op.Relates (e.isWholeArray field) left (e.isWholeArray other) right := by
  obtain ⟨l, hl, hs⟩ := bind_eq_ok_iff.1 hs
  obtain ⟨r, hr, hs⟩ := bind_eq_ok_iff.1 hs
  obtain rfl : comparisonScript field l.node.isArray op other r.node.isArray = s :=
    Except.ok.inj hs
  obtain ⟨body, hbody, hdecides⟩ :=
    decides_comparisonScript field l.node.isArray op other r.node.isArray hd
  rw [hbody] at hrun
  rw [isWholeArray_of_resolve hl, isWholeArray_of_resolve hr, run_eq_true_iff hdecides hrun]
  constructor
  · rintro ⟨choice', right, hright, choice, left, hleft, hrel⟩
    exact ⟨choice, left, choice', right, hleft, hright, hrel⟩
  · rintro ⟨choice, left, choice', right, hleft, hright, hrel⟩
    exact ⟨choice', right, hright, choice, left, hleft, hrel⟩

/-- Rows whose keys are compared with a bound: the second row alone stays below it. -/
theorem run_compareFields_rows_below_bound :
    let e : Entity := ⟨"table", [("rows", .objectArray [("keys", .scalarArray .string)]),
      ("bound", .scalar .string)]⟩
    let field : Path := [.name "rows", .any, .name "keys"]
    let d : Json := .object [("rows", .array [.object [("keys", .array [.string "b", .string "z"])],
      .object [("keys", .array [.string "a", .string "b"])]]), ("bound", .string "m")]
    ∃ s, (Query.compareFields field .lt [.name "bound"]).script e = .ok s ∧ d.Addressable ∧
      s.run d = .ok true ∧ ∃ choice left choice' right,
        field.Selects (some d) choice left ∧
          Path.Selects [.name "bound"] (some d) choice' right ∧
            Comparison.lt.Relates (e.isWholeArray field) left (e.isWholeArray [.name "bound"])
              right := by
  intro e field d
  have hd : d.Addressable := by
    simp [d, Json.Addressable, Json.AllAddressable, Json.MembersAddressable, Double.HoldsInt]
  have hrun : (comparisonScript field true .lt [.name "bound"] false).run d = .ok true := by
    rfl
  exact ⟨_, rfl, hd, hrun, (run_compareFields_eq_true_iff (e := e) rfl hd hrun).1 rfl⟩

end Docstore
