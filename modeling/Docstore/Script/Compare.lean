import Docstore.Json.Basic
import Docstore.Number.Reading
import Docstore.Query.Operator
import Docstore.Text.Blank

/-!
# Loose comparison

How a script compares two values: numbers by value, strings by characters, a string with a
number as numbers. Arrays and objects compare with nothing. Null equals null alone, but has the
place of zero in the order.

* `Json.looseOrder?` : the order that equality looks at;
* `Json.relationalOrder?` : the order of the other comparisons;
* `Comparison.holds` : a comparison of two values;
* `Json.isTruthy` : a value as a condition.
-/

namespace Docstore

namespace Json

/-- A value as a condition: null, zero, not-a-number and the empty string fail. -/
def isTruthy : Json → Bool
  | .null => false
  | .bool b => b
  | .int n => !(Double.ofInt n).isZero
  | .double x => !x.isZero
  | .string s => s != ""
  | .array _ => true
  | .object _ => true

/-- A number, the number that a text denotes, or a truth value as one or zero. -/
def looseNumber? : Json → Option Double
  | .int n => some (.ofInt n)
  | .double x => some (.finite x)
  | .string s => Double.ofText? (String.ofList (Text.trim s.toList))
  | .bool b => some (if b then .finite .one else .zero false)
  | _ => none

/-- The order of two optional numbers. -/
def numberOrder? : Option Double → Option Double → Option Ordering
  | some a, some b => a.compare? b
  | _, _ => none

/-- The order of two values as equality sees it. -/
def looseOrder? : Json → Json → Option Ordering
  | .string a, .string b => some (compare a b)
  | .null, .null => some .eq
  | .null, _ => none
  | _, .null => none
  | a, b => numberOrder? a.looseNumber? b.looseNumber?

/-- A value as a number where null is zero. -/
def relationalNumber? : Json → Option Double
  | .null => some (.zero false)
  | v => v.looseNumber?

/-- The order of two values as the other comparisons see it. -/
def relationalOrder? : Json → Json → Option Ordering
  | .string a, .string b => some (compare a b)
  | a, b => numberOrder? a.relationalNumber? b.relationalNumber?

end Json

/-- The comparison of two values. -/
def Comparison.holds (op : Comparison) (left right : Json) : Bool :=
  match op with
  | .eq => left.looseOrder? right == some .eq
  | .neq => left.looseOrder? right != some .eq
  | .lt => left.relationalOrder? right == some .lt
  | .gt => left.relationalOrder? right == some .gt
  | .lte => left.relationalOrder? right == some .lt || left.relationalOrder? right == some .eq
  | .gte => left.relationalOrder? right == some .gt || left.relationalOrder? right == some .eq

end Docstore
