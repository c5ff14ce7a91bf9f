import Docstore.Bson.Extended
import Docstore.Script.Compare
import Docstore.Script.Text

/-!
# Running predicates

A script runs against a JSON document, or against the relaxed JSON form of a record.

* `Script.Env` : the variables of a run, one flat scope;
* `Json.follow?` : the value that a chain of accessors leads to;
* `Stmt.run`, `Stmt.runBlock` : the meaning of statements;
* `Script.run`, `Script.runRecord` : the answer of a predicate.

A missing field reads as null. The length of an array is taken once, before its loop starts.
-/

namespace Docstore

/-- Why a script stops without an answer. -/
inductive ScriptError where
  /-- A length was asked of something that is not an array. -/
  | notAnArray (ref : FieldRef)
  /-- A variable was read before it had a value. -/
  | undefinedVariable (v : String)
  /-- The variable of an accessor holds no index. -/
  | invalidIndex (ref : FieldRef)
deriving DecidableEq

/-- The wording of an error. -/
def ScriptError.message : ScriptError → String
  | .notAnArray ref => "not an array: " ++ ref.text
  | .undefinedVariable v => "undefined variable: " ++ v
  | .invalidIndex ref => "invalid index in " ++ ref.text

/-- The variables of a run. -/
abbrev Script.Env := Fields Json

/-- How a statement ends. -/
inductive Flow where
  /-- With the next statement. -/
  | next
  /-- With the end of the innermost loop. -/
  | leave
  /-- With the answer of the predicate. -/
  | result (b : Bool)
deriving DecidableEq

/-- The index that a value is. -/
def Json.index? : Json → Option Nat
  | .int n => if 0 ≤ n then some n.toNat else none
  | _ => none

/-- One step from a value; `whole` is the chain named in an error. -/
def Accessor.step (env : Script.Env) (whole : FieldRef) (current : Json) :
    Accessor → Except ScriptError (Option Json)
  | .name key => .ok (current.get? key)
  | .index i => .ok (current.at? i)
  | .var v =>
    match env.get? v with
    | none => .error (.undefinedVariable v)
    | some held =>
      match held.index? with
      | none => .error (.invalidIndex whole)
      | some i => .ok (current.at? i)

/-- The value that accessors lead to. Nothing is looked at beyond a missing step. -/
def FieldRef.followFrom (env : Script.Env) (whole : FieldRef) :
    FieldRef → Json → Except ScriptError (Option Json)
  | [], current => .ok (some current)
  | a :: rest, current => do
    match ← a.step env whole current with
    | some below => followFrom env whole rest below
    | none => return none

/-- The value that a chain leads to in `this`. -/
def FieldRef.lookup (env : Script.Env) (this : Json) (ref : FieldRef) :
    Except ScriptError (Option Json) :=
  FieldRef.followFrom env ref ref this

/-- The length of the array that a chain leads to. -/
def FieldRef.count (env : Script.Env) (this : Json) (ref : FieldRef) : Except ScriptError Nat := do
  match ← ref.lookup env this with
  | some (.array items) => return items.length
  | _ => throw (.notAnArray ref)

/-- The value of an expression. -/
def Expr.eval (env : Script.Env) (this : Json) : Expr → Except ScriptError Json
  | .field ref => do return (← ref.lookup env this).getD .null
  | .length ref => do return .int (← ref.count env this)
  | .var v =>
    match env.get? v with
    | some value => .ok value
    | none => .error (.undefinedVariable v)
  | .bool b => .ok (.bool b)
  | .compare op left right => do
    let l ← left.eval env this
    let r ← right.eval env this
    return .bool (op.holds l r)
  | .not inner => do return .bool !(← inner.eval env this).isTruthy

/-- Runs `body` for `count` indices from `i` on, until one does not end with the next
statement. -/
def loopFrom (body : Nat → Script.Env → Except ScriptError (Flow × Script.Env)) :
    (count i : Nat) → Script.Env → Except ScriptError (Flow × Script.Env)
  | 0, _, env => .ok (.next, env)
  | count + 1, i, env => do
    match ← body i env with
    | (.next, env) => loopFrom body count (i + 1) env
    | (.leave, env) => return (.next, env)
    | (.result b, env) => return (.result b, env)

mutual

/-- Runs a statement. -/
def Stmt.run (this : Json) : Stmt → Script.Env → Except ScriptError (Flow × Script.Env)
  | .declare v value, env => do return (.next, env.insert v (← value.eval env this))
  | .assign v value, env => do return (.next, env.insert v (← value.eval env this))
  | .forEach v array body, env => do
    let count ← array.count env this
    loopFrom (fun i env => Stmt.runBlock this body (env.insert v (.int i))) count 0 env
  | .branch cond yes no, env => do
    if (← cond.eval env this).isTruthy then Stmt.runBlock this yes env
    else Stmt.runBlock this no env
  | .result value, env => do return (.result (← value.eval env this).isTruthy, env)
  | .leave, env => .ok (.leave, env)

/-- Runs statements in a row. -/
def Stmt.runBlock (this : Json) :
    List Stmt → Script.Env → Except ScriptError (Flow × Script.Env)
  | [], env => .ok (.next, env)
  | s :: rest, env => do
    match ← Stmt.run this s env with
    | (.next, env) => Stmt.runBlock this rest env
    | ended => return ended

end

namespace Script

/-- The answer of a predicate; a body without a result gives `false`. -/
def run (s : Script) (this : Json) : Except ScriptError Bool := do
  match ← Stmt.runBlock this s.body [] with
  | (.result b, _) => return b
  | _ => return false

/-- The answer of a predicate for a stored record. -/
def runRecord (s : Script) (record : Record) : Except ScriptError Bool :=
  s.run (Bson.toJson (.document record))

end Script

end Docstore
