import Docstore.Mapper
import Docstore.Query.Basic
import Docstore.Script.Basic

/-!
# Predicates of field comparisons

Comparisons between fields of one record have no native operator and become scripts.

* `Operand.ofPath` : an operand whose wildcards are loops over variables;
* `Operand.nest` : statements inside those loops;
* `comparisonBody` : the test of one choice of indices, element by element for arrays;
* `Query.script` : the script of a field comparison or a field membership.

With wildcards on both sides the loops of the right operand stand outside those of the left.
-/

namespace Docstore

/-- A loop over the indices of an array. -/
structure Loop where
  var : String
  array : FieldRef
deriving DecidableEq

/-- An operand of a comparison: its loops, the first one outermost, and its value in them. -/
structure Operand where
  loops : List Loop
  ref : FieldRef
deriving DecidableEq

namespace Operand

/-- Extends an operand by the segments of a path, each wildcard opening a loop. -/
def extend (stem : String) : Path → Operand → Operand
  | [], o => o
  | .any :: rest, o =>
    let v := stem ++ Text.natText o.loops.length
    extend stem rest ⟨o.loops ++ [⟨v, o.ref⟩], o.ref.indexed v⟩
  | .index i :: rest, o => extend stem rest ⟨o.loops, o.ref ++ [.index i]⟩
  | .name key :: rest, o => extend stem rest ⟨o.loops, o.ref ++ [.name key]⟩

/-- The operand of a path; the variables of its loops are `stem` with a number. -/
def ofPath (stem : String) (p : Path) : Operand := extend stem p ⟨[], []⟩

/-- Statements inside loops, the first loop outermost. -/
def nest : List Loop → List Stmt → List Stmt
  | [], body => body
  | loop :: rest, body => [.forEach loop.var loop.array (nest rest body)]

end Operand

/-! ### One choice of indices -/

/-- The variable that runs over the elements of whole arrays. -/
def elementVar : String := "i"

/-- Sets `flag` and clears it at the first element for which `mismatch` holds. -/
def scan (flag : String) (array : FieldRef) (mismatch : Expr) : List Stmt :=
  [.declare flag (.bool true),
    .forEach elementVar array [.when mismatch [.assign flag (.bool false), .leave]]]

/-- Two arrays: equal lengths, and the comparison at every index. They differ when the lengths
do or some pair does. -/
def arrayArray (op : Comparison) (l r : FieldRef) : List Stmt :=
  let sameLength := Expr.compare .eq (.length l) (.length r)
  let left := Expr.field (l.indexed elementVar)
  let right := Expr.field (r.indexed elementVar)
  let flag := if op.isEquality then "allEq" else "allOk"
  let mismatch :=
    if op.isEquality then Expr.compare .neq left right else .not (.compare op left right)
  let verdict := if op = .neq then Expr.not (.var flag) else .var flag
  [.branch sameLength (scan flag l mismatch ++ [.when verdict [.resultBool true]])
    (if op = .neq then [.resultBool true] else [])]

/-- A single value and an array: the comparison with every element. -/
def scalarArray (op : Comparison) (scalar array : FieldRef) : List Stmt :=
  let element := Expr.field (array.indexed elementVar)
  scan "allOk" array (.not (.compare op (.field scalar) element)) ++
    [.when (.var "allOk") [.resultBool true]]

/-- Statements that answer `true` when the comparison holds, by which of the operands are whole
arrays. With the array on the left the comparison is turned round. -/
def comparisonBody (op : Comparison) (l : FieldRef) (leftArray : Bool) (r : FieldRef)
    (rightArray : Bool) : List Stmt :=
  match leftArray, rightArray with
  | true, true => arrayArray op l r
  | true, false => scalarArray op.flip r l
  | false, true => scalarArray op l r
  | false, false => [.when (.compare op (.field l) (.field r)) [.resultBool true]]

/-! ### Scripts -/

/-- The script of a comparison of two fields. -/
def comparisonScript (field : Path) (leftArray : Bool) (op : Comparison) (other : Path)
    (rightArray : Bool) : Script :=
  let both := field.any Segment.isAny && other.any Segment.isAny
  let l := Operand.ofPath (if both then "l" else "i") field
  let r := Operand.ofPath (if both then "r" else "i") other
  ⟨Operand.nest (r.loops ++ l.loops) (comparisonBody op l.ref leftArray r.ref rightArray) ++
    [.resultBool false]⟩

/-- The variable that runs over the array of a membership test. -/
def memberVar : String := "nfr"

/-- The script of a membership test. -/
def membershipScript (op : Membership) (l r : FieldRef) : Script :=
  let found := op == .isIn
  ⟨[.forEach memberVar r
      [.when (.compare .eq (.field l) (.field (r.indexed memberVar))) [.resultBool found]],
    .resultBool !found]⟩

/-- The chain of a path without wildcards. -/
def fieldRef (p : Path) : Except Error FieldRef :=
  match FieldRef.ofPath? p with
  | some ref => .ok ref
  | none => .error (.unusablePath p)

/-- The script of a query that compares fields of the entity with each other. -/
def Query.script (e : Entity) : Query → Except Error Script
  | .compareFields field op other => do
    let l ← e.root.resolve field
    let r ← e.root.resolve other
    return comparisonScript field l.node.isArray op other r.node.isArray
  | .memberOf field op array => do
    let c ← e.root.resolve field
    if c.node.scalarType?.any ScalarType.supportsEquality then
      let _ ← e.root.resolve array
      let l ← fieldRef field
      let r ← fieldRef array
      return membershipScript op l r
    else throw (.invalidField field)
  | query => .error (.noPredicate query)

end Docstore
