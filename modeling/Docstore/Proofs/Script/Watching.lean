import Docstore.Proofs.Entity.Listing
import Docstore.Proofs.Except
import Docstore.Proofs.Fields
import Docstore.Proofs.Script.LooseOrder
import Docstore.Script.Run

/-!
# What scripts look at

A script gives the same answer on two documents when everything that it looks at is alike in both.

* `Json.Alike` : values that no comparison tells apart;
* `Json.SameAlong` : documents that are alike all the way down a path;
* `FieldRef.labels` : what a chain of accessors looks at, whatever its indices are;
* `Stmt.Watches` : everything that a statement looks at has a property;
* `Stmt.run_of_watches` : statements run in the same way on documents that are alike along every
  path with the property.

Of a value that is not followed any further a script sees no more than its kind, and of an array
that it runs through no more than its length. A chain is followed only while its variables hold
indices: a loop sets its variable, and nothing but a loop sets it again.
-/

namespace Docstore

/-! ### Values that are alike -/

namespace Json

/-- The values are the same, or both are arrays, or both are objects. -/
inductive Alike : Json → Json → Prop
  | refl (v : Json) : Alike v v
  | array (items items' : List Json) : Alike (.array items) (.array items')
  | object (members members' : List (String × Json)) : Alike (.object members) (.object members')

theorem Alike.isTruthy_eq {v w : Json} (h : Alike v w) : w.isTruthy = v.isTruthy := by
  cases h <;> rfl

/-- The length of an array. -/
def length? : Json → Option Nat
  | .array items => some items.length
  | _ => none

/-- All the way down a path, whatever indices its wildcards take, the values are alike and arrays
have the same length. A missing value counts as null. -/
def SameAlong : Path → Json → Json → Prop
  | [], v, w => v.Alike w
  | .name key :: rest, v, w =>
    v.Alike w ∧ SameAlong rest ((v.get? key).getD .null) ((w.get? key).getD .null)
  | _ :: rest, v, w =>
    v.Alike w ∧ v.length? = w.length? ∧
      ∀ i, SameAlong rest ((v.at? i).getD .null) ((w.at? i).getD .null)

namespace SameAlong

variable {p q : Path} {v w : Json}

theorem refl (p : Path) (v : Json) : SameAlong p v v := by
  induction p generalizing v with
  | nil => exact Alike.refl v
  | cons s rest ih =>
    cases s with
    | name key => exact ⟨.refl v, ih _⟩
    | index i => exact ⟨.refl v, rfl, fun i => ih _⟩
    | any => exact ⟨.refl v, rfl, fun i => ih _⟩

theorem alike (h : SameAlong p v w) : v.Alike w := by
  cases p with
  | nil => exact h
  | cons s rest => cases s <;> exact h.1

theorem of_append (h : SameAlong (p ++ q) v w) : SameAlong p v w := by
  induction p generalizing v w with
  | nil => exact h.alike
  | cons s rest ih =>
    cases s with
    | name key => exact ⟨h.1, ih h.2⟩
    | index i => exact ⟨h.1, h.2.1, fun i => ih (h.2.2 i)⟩
    | any => exact ⟨h.1, h.2.1, fun i => ih (h.2.2 i)⟩

/-- Values that are alike and no arrays have no elements. -/
theorem of_alike (h : v.Alike w) (hv : ∀ items, v ≠ .array items) : SameAlong [.any] v w := by
  cases h with
  | refl => exact .refl _ v
  | array items items' => exact absurd rfl (hv items)
  | object members members' => exact ⟨.object members members', rfl, fun _ => refl [] .null⟩

end SameAlong

end Json

/-- No comparison tells like values apart: arrays and objects compare with nothing. -/
theorem Comparison.holds_alike {l l' r r' : Json} (op : Comparison) (hl : l.Alike l')
    (hr : r.Alike r') : op.holds l' r' = op.holds l r := by
  have hloose : l'.looseOrder? r' = l.looseOrder? r := by
    cases hl <;> cases hr <;> first | rfl | (cases l <;> rfl) | (cases r <;> rfl)
  have hrelational : l'.relationalOrder? r' = l.relationalOrder? r := by
    cases hl <;> cases hr <;> first | rfl | (cases l <;> rfl)
  cases op <;> simp only [holds, hloose, hrelational]

namespace Script

/-- Two evaluations fail in the same way, or give values that are alike. -/
inductive AlikeResults : Except ScriptError Json → Except ScriptError Json → Prop
  | error (err : ScriptError) : AlikeResults (.error err) (.error err)
  | ok {v w : Json} (h : v.Alike w) : AlikeResults (.ok v) (.ok w)

namespace AlikeResults

variable {x x' y y' : Except ScriptError Json}

theorem refl (x : Except ScriptError Json) : AlikeResults x x := by
  cases x with
  | error err => exact .error err
  | ok v => exact .ok (.refl v)

theorem compare (op : Comparison) (hx : AlikeResults x x') (hy : AlikeResults y y') :
    (do return Json.bool (op.holds (← x') (← y'))) =
      (do return Json.bool (op.holds (← x) (← y)) : Except ScriptError Json) := by
  cases hx with
  | error err => rfl
  | ok hl =>
    cases hy with
    | error err => rfl
    | ok hr => exact congrArg (fun b => Except.ok (Json.bool b)) (op.holds_alike hl hr)

/-- What depends on a condition alone is the same. -/
theorem isTruthy {α : Type} (h : AlikeResults x x') (next : Bool → Except ScriptError α) :
    (x' >>= fun v => next v.isTruthy) = (x >>= fun v => next v.isTruthy) := by
  cases h with
  | error err => rfl
  | ok h => exact congrArg next h.isTruthy_eq

end AlikeResults

end Script

/-! ### Chains -/

/-- What a step looks at, whatever index it takes. -/
def Accessor.label : Accessor → Segment
  | .name key => .name key
  | _ => .any

namespace FieldRef

/-- What a chain looks at, whatever indices it takes. -/
def labels (ref : FieldRef) : Path := ref.map Accessor.label

/-- The variables of the chain are among those of a list. -/
def Scoped (scope : List String) (ref : FieldRef) : Prop := ∀ v, Accessor.var v ∈ ref → v ∈ scope

/-- Every variable of the chain holds an index. -/
def Held (env : Script.Env) (ref : FieldRef) : Prop :=
  ∀ v, Accessor.var v ∈ ref → ∃ i : Nat, env.get? v = some (.int i)

theorem labels_append (ref rest : FieldRef) : labels (ref ++ rest) = ref.labels ++ rest.labels :=
  List.map_append

theorem labels_indexed (ref : FieldRef) (v : String) :
    (ref.indexed v).labels = ref.labels ++ [.any] :=
  labels_append ref [.var v]

variable {env : Script.Env} {ref : FieldRef} {a : Accessor} {p : Path} {v w : Json}

theorem step_var {u : String} {i : Nat} (hi : env.get? u = some (.int i)) (whole : FieldRef)
    (v : Json) : Accessor.step env whole v (.var u) = .ok (v.at? i) := by
  have hindex : (Json.int i).index? = some i := by simp [Json.index?]
  simp only [Accessor.step, hi, hindex]

/-- One step leads from like values to like ones. -/
theorem step_sameAlong (whole : FieldRef) (h : Json.SameAlong (a.label :: p) v w)
    (hheld : Held env (a :: ref)) :
    ∃ x y, a.step env whole v = .ok x ∧ a.step env whole w = .ok y ∧
      Json.SameAlong p (x.getD .null) (y.getD .null) := by
  cases a with
  | name key => exact ⟨_, _, rfl, rfl, h.2⟩
  | index i => exact ⟨_, _, rfl, rfl, h.2.2 i⟩
  | var u =>
    obtain ⟨i, hi⟩ := hheld u List.mem_cons_self
    exact ⟨v.at? i, w.at? i, step_var hi whole v, step_var hi whole w, h.2.2 i⟩

/-- Nothing but null lies below null. -/
theorem followFrom_null (whole : FieldRef) (hheld : ref.Held env) :
    ∃ x, followFrom env whole ref .null = .ok x ∧ x.getD .null = .null := by
  cases ref with
  | nil => exact ⟨_, rfl, rfl⟩
  | cons a rest =>
    refine ⟨none, ?_, rfl⟩
    cases a with
    | name key => rfl
    | index i => rfl
    | var u =>
      obtain ⟨i, hi⟩ := hheld u List.mem_cons_self
      rw [followFrom, step_var hi]
      rfl

/-- A missing value is followed like null. -/
theorem followFrom_cons {whole : FieldRef} {x y : Option Json} (hx : a.step env whole v = .ok x)
    (hy : followFrom env whole ref (x.getD .null) = .ok y) (hheld : ref.Held env) :
    ∃ z, followFrom env whole (a :: ref) v = .ok z ∧ z.getD .null = y.getD .null := by
  rw [followFrom, hx]
  cases x with
  | some below => exact ⟨y, hy, rfl⟩
  | none =>
    obtain ⟨y', hy', hnull⟩ := followFrom_null whole hheld
    obtain rfl : y = y' := Except.ok.inj (hy.symm.trans hy')
    exact ⟨none, rfl, hnull.symm⟩

/-- A chain leads from like values to like ones. -/
theorem followFrom_sameAlong (whole : FieldRef) (h : Json.SameAlong (ref.labels ++ p) v w)
    (hheld : ref.Held env) :
    ∃ x y, followFrom env whole ref v = .ok x ∧ followFrom env whole ref w = .ok y ∧
      Json.SameAlong p (x.getD .null) (y.getD .null) := by
  induction ref generalizing v w with
  | nil => exact ⟨some v, some w, rfl, rfl, h⟩
  | cons a rest ih =>
    have hrest : Held env rest := fun u hu => hheld u (List.mem_cons_of_mem a hu)
    obtain ⟨x, y, hx, hy, hbelow⟩ := step_sameAlong whole h hheld
    obtain ⟨x', y', hx', hy', hsame⟩ := ih hbelow hrest
    obtain ⟨x'', hx'', hxnull⟩ := followFrom_cons hx hx' hrest
    obtain ⟨y'', hy'', hynull⟩ := followFrom_cons hy hy' hrest
    exact ⟨x'', y'', hx'', hy'', hxnull ▸ hynull ▸ hsame⟩

variable {this this' : Json}

/-- The values of a chain are alike in documents that are. -/
theorem eval_sameAlong (h : Json.SameAlong ref.labels this this') (hheld : ref.Held env) :
    Script.AlikeResults ((Expr.field ref).eval env this) ((Expr.field ref).eval env this') := by
  rw [← List.append_nil ref.labels] at h
  obtain ⟨x, y, hx, hy, hsame⟩ := followFrom_sameAlong ref h hheld
  rw [Expr.eval, Expr.eval, lookup, lookup, hx, hy]
  exact .ok hsame

/-- The length that a chain leads to. -/
theorem count_eq {x : Option Json} (h : ref.lookup env this = .ok x) :
    ref.count env this = match (x.getD .null).length? with
      | some n => .ok n
      | none => .error (.notAnArray ref) := by
  rw [count, h]
  rcases x with _ | (_ | _ | _ | _ | _ | _ | _) <;> rfl

/-- The length of an array is the same in documents that are alike down to its elements. -/
theorem count_sameAlong (h : Json.SameAlong (ref.labels ++ [.any]) this this')
    (hheld : ref.Held env) : ref.count env this' = ref.count env this := by
  obtain ⟨x, y, hx, hy, hsame⟩ := followFrom_sameAlong ref h hheld
  rw [count_eq hx, count_eq hy, hsame.2.1]

end FieldRef

/-! ### Scripts -/

/-- Everything that an expression looks at has the property, and its chains have no variables but
those in scope. -/
def Expr.Watches (K : Path → Prop) (scope : List String) : Expr → Prop
  | .field ref => K ref.labels ∧ ref.Scoped scope
  | .length ref => K (ref.labels ++ [.any]) ∧ ref.Scoped scope
  | .var _ => True
  | .bool _ => True
  | .compare _ left right => left.Watches K scope ∧ right.Watches K scope
  | .not inner => inner.Watches K scope

/-- The expression is a value of the document as it stands. -/
def Expr.isField : Expr → Bool
  | .field _ => true
  | _ => false

namespace Stmt

mutual

/-- Everything that a statement looks at has the property. It puts no value of the document into a
variable, and no value at all into those in scope. -/
def Watches (K : Path → Prop) (scope : List String) : Stmt → Prop
  | .declare v value => value.Watches K scope ∧ value.isField = false ∧ v ∉ scope
  | .assign v value => value.Watches K scope ∧ value.isField = false ∧ v ∉ scope
  | .forEach v array body =>
    (K (array.labels ++ [.any]) ∧ array.Scoped scope) ∧ BlockWatches K (scope ++ [v]) body
  | .branch cond yes no =>
    cond.Watches K scope ∧ BlockWatches K scope yes ∧ BlockWatches K scope no
  | .result value => value.Watches K scope
  | .leave => True

/-- Everything that statements in a row look at has the property. -/
def BlockWatches (K : Path → Prop) (scope : List String) : List Stmt → Prop
  | [] => True
  | s :: rest => Watches K scope s ∧ BlockWatches K scope rest

end

end Stmt

namespace Script

/-- The variables in scope hold indices. -/
def HoldIndices (scope : List String) (env : Env) : Prop :=
  ∀ v ∈ scope, ∃ i : Nat, env.get? v = some (.int i)

namespace HoldIndices

variable {scope : List String} {env : Env} {v : String}

theorem held (h : HoldIndices scope env) {ref : FieldRef} (href : ref.Scoped scope) :
    ref.Held env := fun v hv => h v (href v hv)

theorem insert (h : HoldIndices scope env) (hv : v ∉ scope) (value : Json) :
    HoldIndices scope (env.insert v value) := fun u hu => by
  have hne : v ≠ u := fun e => hv (e ▸ hu)
  rw [Fields.get?_insert_of_ne hne]
  exact h u hu

/-- A loop may set a variable that is in scope already. -/
theorem insert_index (h : HoldIndices scope env) (v : String) (i : Nat) :
    HoldIndices (scope ++ [v]) (env.insert v (.int i)) := fun u hu => by
  by_cases hne : v = u
  · subst hne
    exact ⟨i, Fields.get?_insert_self _ _ _⟩
  · rw [Fields.get?_insert_of_ne hne]
    refine h u ((List.mem_append.1 hu).resolve_right fun hmem => hne ?_)
    exact (List.mem_singleton.1 hmem).symm

theorem of_append {more : List String} (h : HoldIndices (scope ++ more) env) :
    HoldIndices scope env := fun u hu => h u (List.mem_append_left _ hu)

end HoldIndices

/-- Two runs are the same, and leave the variables in scope with indices. -/
structure SameRun (scope : List String) (x x' : Except ScriptError (Flow × Env)) : Prop where
  eq : x' = x
  holds : ∀ flow env, x = .ok (flow, env) → HoldIndices scope env

theorem SameRun.pure {scope : List String} {env : Env} (flow : Flow) (h : HoldIndices scope env) :
    SameRun scope (.ok (flow, env)) (.ok (flow, env)) := by
  refine ⟨rfl, fun flow env' h' => ?_⟩
  obtain ⟨-, rfl⟩ := Prod.mk.inj (Except.ok.inj h')
  exact h

/-- Loops whose rounds are the same are the same. -/
theorem SameRun.loopFrom {scope : List String}
    {body body' : Nat → Env → Except ScriptError (Flow × Env)}
    (h : ∀ i env, HoldIndices scope env → SameRun scope (body i env) (body' i env)) (count : Nat) :
    ∀ (i : Nat) (env : Env), HoldIndices scope env →
      SameRun scope (Docstore.loopFrom body count i env) (Docstore.loopFrom body' count i env) := by
  induction count with
  | zero => exact fun i env henv => .pure .next henv
  | succ count ih =>
    intro i env henv
    obtain ⟨heq, hholds⟩ := h i env henv
    rw [Docstore.loopFrom, Docstore.loopFrom, heq]
    cases hround : body i env with
    | error err => exact ⟨rfl, nofun⟩
    | ok ended =>
      obtain ⟨flow, env'⟩ := ended
      have henv' := hholds flow env' hround
      cases flow with
      | next => exact ih (i + 1) env' henv'
      | leave => exact .pure .next henv'
      | result b => exact .pure (.result b) henv'

end Script

open Script

variable {K : Path → Prop} {this this' : Json} {scope : List String}

/-- The values of an expression on both documents are alike, and the same unless it is a value of
the document. -/
theorem Expr.eval_of_watches (h : ∀ p, K p → Json.SameAlong p this this') {env : Env}
    (henv : HoldIndices scope env) {e : Expr} (he : e.Watches K scope) :
    AlikeResults (e.eval env this) (e.eval env this') ∧
      (e.isField = false → e.eval env this' = e.eval env this) := by
  have of_eq : ∀ {x x' : Except ScriptError Json} {p : Prop}, x' = x →
      AlikeResults x x' ∧ (p → x' = x) := fun heq => ⟨heq ▸ .refl _, fun _ => heq⟩
  induction e with
  | field ref => exact ⟨FieldRef.eval_sameAlong (h _ he.1) (henv.held he.2), nofun⟩
  | length ref =>
    refine of_eq ?_
    rw [eval, eval, FieldRef.count_sameAlong (h _ he.1) (henv.held he.2)]
  | var v => exact of_eq rfl
  | bool b => exact of_eq rfl
  | compare op left right ihl ihr =>
    exact of_eq (AlikeResults.compare op (ihl he.1).1 (ihr he.2).1)
  | not inner ih => exact of_eq ((ih he).1.isTruthy fun b => pure (Json.bool !b))

namespace Stmt

/-- Putting a value into a variable out of scope is the same on both documents. -/
theorem sameRun_set (h : ∀ p, K p → Json.SameAlong p this this') {env : Env}
    (henv : HoldIndices scope env) {v : String} {value : Expr}
    (hv : value.Watches K scope ∧ value.isField = false ∧ v ∉ scope) :
    SameRun scope (do return (.next, Fields.insert v (← value.eval env this) env))
      (do return (.next, Fields.insert v (← value.eval env this') env)) := by
  obtain ⟨hwatches, hfield, hscope⟩ := hv
  rw [(Expr.eval_of_watches h henv hwatches).2 hfield]
  cases value.eval env this with
  | error err => exact ⟨rfl, nofun⟩
  | ok held => exact .pure .next (henv.insert hscope held)

mutual

/-- A statement that looks only at what is alike in both documents runs on both in the same way. -/
theorem run_of_watches (h : ∀ p, K p → Json.SameAlong p this this') :
    ∀ {s : Stmt} {scope : List String} {env : Env}, s.Watches K scope → HoldIndices scope env →
      SameRun scope (s.run this env) (s.run this' env)
  | .declare v value, scope, env, hs, henv => by
    rw [run, run]
    exact sameRun_set h henv hs
  | .assign v value, scope, env, hs, henv => by
    rw [run, run]
    exact sameRun_set h henv hs
  | .forEach v array body, scope, env, ⟨⟨hcount, harray⟩, hbody⟩, henv => by
    rw [run, run, FieldRef.count_sameAlong (h _ hcount) (henv.held harray)]
    cases array.count env this with
    | error err => exact ⟨rfl, nofun⟩
    | ok count =>
      refine SameRun.loopFrom (fun i env henv => ?_) count 0 env henv
      obtain ⟨heq, hholds⟩ := runBlock_of_watches h hbody (henv.insert_index v i)
      exact ⟨heq, fun flow env' hend => (hholds flow env' hend).of_append⟩
  | .branch cond yes no, scope, env, ⟨hcond, hyes, hno⟩, henv => by
    have hbranch : ∀ b : Bool, SameRun scope
        (if b then runBlock this yes env else runBlock this no env)
        (if b then runBlock this' yes env else runBlock this' no env) := by
      rintro (_ | _)
      · exact runBlock_of_watches h hno henv
      · exact runBlock_of_watches h hyes henv
    rw [run, run, (Expr.eval_of_watches h henv hcond).1.isTruthy
      fun b => if b then runBlock this' yes env else runBlock this' no env]
    cases cond.eval env this with
    | error err => exact ⟨rfl, nofun⟩
    | ok v => exact hbranch v.isTruthy
  | .result value, scope, env, hs, henv => by
    rw [run, run, (Expr.eval_of_watches h henv hs).1.isTruthy fun b => pure (Flow.result b, env)]
    cases value.eval env this with
    | error err => exact ⟨rfl, nofun⟩
    | ok v => exact .pure _ henv
  | .leave, scope, env, hs, henv => .pure .leave henv

/-- Statements that look only at what is alike in both documents run on both in the same way. -/
theorem runBlock_of_watches (h : ∀ p, K p → Json.SameAlong p this this') :
    ∀ {body : List Stmt} {scope : List String} {env : Env}, BlockWatches K scope body →
      HoldIndices scope env → SameRun scope (runBlock this body env) (runBlock this' body env)
  | [], scope, env, hbody, henv => .pure .next henv
  | s :: rest, scope, env, hbody, henv => by
    obtain ⟨heq, hholds⟩ := run_of_watches h hbody.1 henv
    rw [runBlock, runBlock, heq]
    cases hfirst : s.run this env with
    | error err => exact ⟨rfl, nofun⟩
    | ok ended =>
      obtain ⟨flow, env'⟩ := ended
      have henv' := hholds flow env' hfirst
      cases flow with
      | next => exact runBlock_of_watches h hbody.2 henv'
      | leave => exact .pure .leave henv'
      | result b => exact .pure (.result b) henv'

end

end Stmt

/-- A script that looks only at what is alike in two documents gives the same answer on both, or
stops on both in the same way. -/
theorem Script.run_of_watches (h : ∀ p, K p → Json.SameAlong p this this') {s : Script}
    (hs : Stmt.BlockWatches K [] s.body) : s.run this' = s.run this := by
  rw [run, run, (Stmt.runBlock_of_watches h hs fun v hv => absurd hv List.not_mem_nil).eq]

end Docstore
