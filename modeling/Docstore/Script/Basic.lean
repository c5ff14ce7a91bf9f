import Docstore.Path.Basic
import Docstore.Query.Operator

/-!
# Predicate scripts

Conditions that native operators cannot express are written as the body of a function over
`this`, the stored record.

* `Accessor`, `FieldRef` : the way from `this` to a value;
* `Expr`, `Stmt` : expressions and statements;
* `Script` : the body of a predicate.
-/

namespace Docstore

/-- One step of a way from `this`. -/
inductive Accessor where
  | name (key : String)
  | index (i : Nat)
  /-- The index that a variable holds. -/
  | var (v : String)
deriving DecidableEq

/-- A chain of accessors starting at `this`. -/
abbrev FieldRef := List Accessor

namespace FieldRef

/-- The chain of a path; a wildcard has none. -/
def ofPath? : Path → Option FieldRef
  | [] => some []
  | .name key :: rest => (ofPath? rest).map (.name key :: ·)
  | .index i :: rest => (ofPath? rest).map (.index i :: ·)
  | .any :: _ => none

/-- The element whose index a variable holds. -/
def indexed (f : FieldRef) (v : String) : FieldRef := f ++ [.var v]

end FieldRef

/-- An expression. -/
inductive Expr where
  | field (ref : FieldRef)
  /-- The length of an array. -/
  | length (ref : FieldRef)
  | var (v : String)
  | bool (b : Bool)
  | compare (op : Comparison) (left right : Expr)
  | not (inner : Expr)
deriving DecidableEq

/-- A statement. -/
inductive Stmt where
  /-- Declares a variable. -/
  | declare (v : String) (value : Expr)
  | assign (v : String) (value : Expr)
  /-- Runs the body for every index of an array. -/
  | forEach (v : String) (array : FieldRef) (body : List Stmt)
  | branch (cond : Expr) (yes no : List Stmt)
  | result (value : Expr)
  | leave

namespace Stmt

/-- Statements under a condition. -/
def when (cond : Expr) (yes : List Stmt) : Stmt := .branch cond yes []

/-- A constant result. -/
def resultBool (b : Bool) : Stmt := .result (.bool b)

end Stmt

/-- The body of a predicate. -/
structure Script where
  body : List Stmt

end Docstore
