/-!
# Scalar types

* `ScalarType` : the types of simple fields and simple array elements;
* `ScalarType.name`, `ScalarType.ofName?` : their names in entity declarations;
* `ScalarType.supportsEquality`, `ScalarType.supportsOrdering` : which comparisons a type has.

A type is read back from its own name (`ofName?_name`).
-/

namespace Docstore

/-- The type of a simple value. -/
inductive ScalarType where
  | string
  | integer
  | double
  | boolean
  /-- Decimals, stored as text. -/
  | bigDecimal
  /-- Integers of 128 bits, stored as text. -/
  | bigInteger
  /-- Points of time, stored as dates. -/
  | date
  /-- Free-form values, stored as they are. -/
  | any
deriving DecidableEq

namespace ScalarType

/-- Every type. -/
def all : List ScalarType :=
  [.string, .integer, .double, .boolean, .bigDecimal, .bigInteger, .date, .any]

/-- The name of a type. -/
def name : ScalarType → String
  | .string => "string"
  | .integer => "integer"
  | .double => "double"
  | .boolean => "boolean"
  | .bigDecimal => "bigdecimal"
  | .bigInteger => "biginteger"
  | .date => "date"
  | .any => "any"

/-- The type of a name. -/
def ofName? (text : String) : Option ScalarType := all.find? fun t => t.name == text

theorem ofName?_name (t : ScalarType) : ofName? t.name = some t := by
  cases t <;> decide

/-- Values can be compared for equality: all but free-form ones. -/
def supportsEquality : ScalarType → Bool
  | .any => false
  | _ => true

/-- Values can be compared by size. -/
def supportsOrdering : ScalarType → Bool
  | .any => false
  | .boolean => false
  | _ => true

end ScalarType

end Docstore
