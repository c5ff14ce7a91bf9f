/-!
# Operators

The operators of queries and updates, and their native and script spellings.

* `Comparison` : the six comparisons; `Comparison.flip` is the one with operands swapped;
* `Connective`, `Membership`, `Containment` : the operators over lists;
* `Assignment` : the operators of updates.
-/

namespace Docstore

/-- A comparison of two values. -/
inductive Comparison where
  | eq
  | neq
  | lt
  | gt
  | lte
  | gte
deriving DecidableEq

namespace Comparison

/-- Every comparison. -/
def all : List Comparison := [.eq, .neq, .lt, .gt, .lte, .gte]

/-- The comparison that gives the same answer with its operands swapped. -/
def flip : Comparison → Comparison
  | .eq => .eq
  | .neq => .neq
  | .lt => .gt
  | .gt => .lt
  | .lte => .gte
  | .gte => .lte

theorem flip_flip (op : Comparison) : op.flip.flip = op := by
  cases op <;> rfl

/-- The comparison needs values to be equal or different only. -/
def isEquality : Comparison → Bool
  | .eq => true
  | .neq => true
  | _ => false

/-- The native operator. -/
def native : Comparison → String
  | .eq => "$eq"
  | .neq => "$ne"
  | .lt => "$lt"
  | .gt => "$gt"
  | .lte => "$lte"
  | .gte => "$gte"

/-- The symbol in scripts. -/
def symbol : Comparison → String
  | .eq => "=="
  | .neq => "!="
  | .lt => "<"
  | .gt => ">"
  | .lte => "<="
  | .gte => ">="

/-- The name in messages. -/
def name : Comparison → String
  | .eq => "Eq"
  | .neq => "Neq"
  | .lt => "Lt"
  | .gt => "Gt"
  | .lte => "Lte"
  | .gte => "Gte"

end Comparison

/-- A connective over a list of queries. -/
inductive Connective where
  | and
  | or
deriving DecidableEq

/-- The name in messages. -/
def Connective.name : Connective → String
  | .and => "And"
  | .or => "Or"

/-- The native operator of a connective. -/
def Connective.native : Connective → String
  | .and => "$and"
  | .or => "$or"

/-- The native operator of a negated query. It takes a list: the operator that negates a single
operand does not take whole queries. -/
def negationOperator : String := "$nor"

/-- Membership of a value in a list. -/
inductive Membership where
  | isIn
  | notIn
deriving DecidableEq

/-- The name in messages. -/
def Membership.name : Membership → String
  | .isIn => "In"
  | .notIn => "NotIn"

/-- The native operator of a membership test. -/
def Membership.native : Membership → String
  | .isIn => "$in"
  | .notIn => "$nin"

/-- How much of a list an array contains. -/
inductive Containment where
  | all
  | any
  | none
deriving DecidableEq

/-- The name in messages. -/
def Containment.name : Containment → String
  | .all => "All"
  | .any => "Any"
  | .none => "None"

/-- How an update changes a field to a value. -/
inductive Assignment where
  /-- The value replaces the old one. -/
  | set
  /-- The value is added to the old one. -/
  | add
deriving DecidableEq

/-- The native operator of an assignment. -/
def Assignment.native : Assignment → String
  | .set => "$set"
  | .add => "$inc"

end Docstore
