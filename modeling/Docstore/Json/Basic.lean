import Docstore.Fields
import Docstore.Number.Double

/-!
# JSON documents

* `Json` : a JSON value, in which integers and doubles are different kinds of number;
* `Json.get?` : a member of an object;
* `Json.at?` : an element of an array;
* `Json.WellFormed` : what every parsed document satisfies, that object members have distinct
  names and integers fit a signed or an unsigned word of 64 bits.
-/

namespace Docstore

/-- A JSON value. -/
inductive Json where
  | null
  | bool (b : Bool)
  | int (n : Int)
  | double (x : Finite)
  | string (s : String)
  | array (items : List Json)
  | object (members : List (String × Json))
deriving Inhabited

namespace Json

/-- The member `name` of an object. -/
def get? (name : String) : Json → Option Json
  | .object members => Fields.get? name members
  | _ => none

/-- The element at `index` of an array. -/
def at? (index : Nat) : Json → Option Json
  | .array items => items[index]?
  | _ => none

/-- The integers of JSON: those of a signed or an unsigned word of 64 bits. -/
def IntInRange (n : Int) : Prop := -0x8000000000000000 ≤ n ∧ n < 0x10000000000000000

instance (n : Int) : Decidable (IntInRange n) := inferInstanceAs (Decidable (_ ∧ _))

mutual

/-- Integers are in range and the members of every object have distinct names. -/
def WellFormed : Json → Prop
  | .int n => IntInRange n
  | .array items => AllWellFormed items
  | .object members => Fields.Distinct members ∧ MembersWellFormed members
  | _ => True

/-- Every element is well formed. -/
def AllWellFormed : List Json → Prop
  | [] => True
  | item :: rest => WellFormed item ∧ AllWellFormed rest

/-- Every member is well formed. -/
def MembersWellFormed : List (String × Json) → Prop
  | [] => True
  | (_, value) :: rest => WellFormed value ∧ MembersWellFormed rest

end

end Json

end Docstore
