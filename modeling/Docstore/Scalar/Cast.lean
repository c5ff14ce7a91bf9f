import Docstore.Bson.Extended
import Docstore.Bson.Text
import Docstore.Json.Text
import Docstore.Number.Decimal
import Docstore.Number.Reading
import Docstore.Scalar.Basic
import Docstore.Text.Blank

/-!
# Values of scalar types

A JSON value is cast to a scalar type, stored, and read back.

* `Canonical` : a value of a scalar type;
* `ScalarType.cast` : the value that a JSON value denotes in a type;
* `Canonical.stored` : its stored form;
* `ScalarType.read` : the JSON value of a stored one;
* `CastError` : why a value has no counterpart on the other side.

Null is a value of every type. Numbers and truth values are accepted as text and text as
numbers where nothing is lost; integers are never rounded or clamped.
-/

namespace Docstore

/-- Why a value could not be converted. -/
inductive CastError where
  /-- The JSON value is none of the type. -/
  | json (value : Json) (type : ScalarType)
  /-- The stored value is none of the type. -/
  | stored (value : Bson) (type : ScalarType)
  /-- Free-form JSON holds an integer beyond 64 signed bits. -/
  | integerTooLarge (n : Int)

namespace CastError

/-- The wording of an error. -/
def message : CastError → String
  | .json value type => "cannot cast " ++ value.text ++ " to " ++ type.name
  | .stored value type => "cannot read stored " ++ value.text ++ " as " ++ type.name
  | .integerTooLarge n =>
    "conversion failed: BSON does not support unsigned integers.\n                 " ++
      "An attempt to serialize the value: " ++ Text.intText n ++
      " in a signed type failed due to the value's size."

end CastError

/-- A value of a scalar type. -/
inductive Canonical where
  | null
  | boolean (b : Bool)
  | integer (n : Int64)
  | double (x : Double)
  | string (s : String)
  | bigDecimal (d : Decimal)
  /-- An integer of 128 bits. -/
  | bigInteger (n : Int)
  /-- Milliseconds since 1970. -/
  | date (millis : Int64)
  | any (value : Bson)

namespace Canonical

/-- The value is null. -/
def isNull : Canonical → Bool
  | .null => true
  | _ => false

/-- The stored form. Numbers of any size have no form of their own and are stored as text. -/
def stored : Canonical → Bson
  | .null => .null
  | .boolean b => .bool b
  | .integer n => .int64 n
  | .double x => .double x
  | .string s => .string s
  | .bigDecimal d => .string d.text
  | .bigInteger n => .string (Text.intText n)
  | .date millis => .date millis
  | .any value => value

end Canonical

namespace ScalarType

/-- The text without blanks at its ends. -/
def trimmed (s : String) : String := String.ofList (Text.trim s.toList)

/-- The whole number that a double is, when it fits 64 signed bits. -/
def wholeOfDouble? (x : Double) : Option Int64 :=
  -- As a double the largest integer is `2 ^ 63`, which is out of range itself.
  if x.toInt?.isSome ∧ (x.compare? (.ofInt (-0x8000000000000000))).any Ordering.isGE ∧
      (x.compare? (.ofInt 0x7FFFFFFFFFFFFFFF)).any Ordering.isLT then
    some x.clamped
  else none

/-- An integer of 64 bits as text. -/
def int64OfText? (s : String) : Option Int64 := (Text.intOfText? s.toList).bind Bson.int64OfInt?

/-- An integer of 128 bits as text. -/
def int128OfText? (s : String) : Option Int :=
  (Text.intOfText? s.toList).bind fun n =>
    if -0x80000000000000000000000000000000 ≤ n ∧ n < 0x80000000000000000000000000000000 then
      some n
    else none

/-- The truth value that a text spells, in any case of letters. -/
def boolOfText? (s : String) : Option Bool :=
  let word := (Text.trim s.toList).map Char.toLower
  if word = "true".toList then some true
  else if word = "false".toList then some false
  else none

/-- The number one or zero. -/
def doubleOfBool (b : Bool) : Double := if b then .finite .one else .zero false

/-! ### Casting -/

/-- A JSON value as text. -/
def castString? : Json → Option String
  | .string s => some s
  | .int n => some (Text.intText n)
  | .double x => some (x.text Json.layout)
  | .bool b => some (Bson.boolText b)
  | _ => none

/-- A JSON value as an integer. -/
def castInteger? : Json → Option Int64
  | .int n =>
    match Bson.int64OfInt? n with
    | some m => some m
    | none => wholeOfDouble? (.ofInt n)
  | .double x => wholeOfDouble? (.finite x)
  | .string s => int64OfText? (trimmed s)
  | .bool b => some (if b then 1 else 0)
  | _ => none

/-- A JSON value as a double. -/
def castDouble? : Json → Option Double
  | .int n => some (.ofInt n)
  | .double x => some (.finite x)
  | .string s => Double.ofText? (trimmed s)
  | .bool b => some (doubleOfBool b)
  | _ => none

/-- A JSON value as a truth value; numbers but zero are true. -/
def castBoolean? : Json → Option Bool
  | .bool b => some b
  | .string s => boolOfText? s
  | .int n => some !(Double.ofInt n).isZero
  | .double x => some !x.isZero
  | _ => none

/-- A JSON value as a decimal: numbers by their text. -/
def castDecimal? : Json → Option Decimal
  | .int n => Decimal.ofText? (Text.intText n)
  | .double x => Decimal.ofText? (x.text Json.layout)
  | .string s => Decimal.ofText? (trimmed s)
  | _ => none

/-- A JSON value as an integer of 128 bits. -/
def castBigInteger? : Json → Option Int
  | .int n => some n
  | .string s => int128OfText? (trimmed s)
  | _ => none

/-- A JSON value as milliseconds: text of an instant, or an integer. -/
def castDate? : Json → Option Int64
  | .string s => Instant.ofText? s
  | .int n => Bson.int64OfInt? n
  | _ => none

/-- The value of a type that a JSON value other than null denotes. Free-form values are not
among them: they are stored as they are. -/
def canonical? (t : ScalarType) (value : Json) : Option Canonical :=
  match t with
  | .string => (castString? value).map .string
  | .integer => (castInteger? value).map .integer
  | .double => (castDouble? value).map .double
  | .boolean => (castBoolean? value).map .boolean
  | .bigDecimal => (castDecimal? value).map .bigDecimal
  | .bigInteger => (castBigInteger? value).map .bigInteger
  | .date => (castDate? value).map .date
  | .any => none

/-- The value of a type that a JSON value denotes. -/
def cast (t : ScalarType) (value : Json) : Except CastError Canonical :=
  match t, value with
  | _, .null => .ok .null
  | .any, value =>
    match Bson.ofJson value with
    | .ok stored => .ok (.any stored)
    | .error n => .error (.integerTooLarge n)
  | t, value =>
    match t.canonical? value with
    | some c => .ok c
    | none => .error (.json value t)

/-! ### Reading -/

/-- A finite double as JSON; others have no form. -/
def doubleJson? : Double → Option Json
  | .finite x => some (.double x)
  | _ => none

/-- A stored value as text. -/
def readString? : Bson → Option Json
  | .string s => some (.string s)
  | .objectId id => some (.string id.text)
  | .int32 n => some (.string (Text.intText n.toInt))
  | .int64 n => some (.string (Text.intText n.toInt))
  | .double x => some (.string (x.text Bson.layout))
  | .bool b => some (.string (Bson.boolText b))
  | _ => none

/-- A stored value as an integer. -/
def readInteger? : Bson → Option Json
  | .int32 n => some (.int n.toInt)
  | .int64 n => some (.int n.toInt)
  | .double x => (wholeOfDouble? x).map fun n => .int n.toInt
  | .string s => (int64OfText? s).map fun n => .int n.toInt
  | _ => none

/-- A stored value as a double. -/
def readDouble? : Bson → Option Json
  | .double x => doubleJson? x
  | .int32 n => doubleJson? (.ofInt n.toInt)
  | .int64 n => doubleJson? (.ofInt n.toInt)
  | .string s => (Double.ofText? s).bind doubleJson?
  | _ => none

/-- A stored value as a truth value. -/
def readBoolean? : Bson → Option Json
  | .bool b => some (.bool b)
  | _ => none

/-- A stored value as a decimal. -/
def decimalOfStored? : Bson → Option Decimal
  | .string s => Decimal.ofText? s
  | .double x => Decimal.ofDouble? x
  | .int32 n => some (.ofInt64 n.toInt64)
  | .int64 n => some (.ofInt64 n)
  | _ => none

/-- A stored value as an integer of 128 bits; doubles have to be whole and pass through the
decimal close to them. -/
def bigIntegerOfStored? : Bson → Option Int
  | .string s => int128OfText? s
  | .int32 n => some n.toInt
  | .int64 n => some n.toInt
  | .double x => if x.toInt?.isSome then (Decimal.ofDouble? x).map Decimal.truncate else none
  | _ => none

/-- A stored value as the text of an instant; text is taken as it is. -/
def readDate? : Bson → Option Json
  | .date millis => (Instant.text? millis.toInt).map .string
  | .string s => some (.string s)
  | _ => none

/-- The JSON value of a stored one that is not null. Numbers of any size become text, so that
no digit is lost. -/
def json? (t : ScalarType) (value : Bson) : Option Json :=
  match t with
  | .string => readString? value
  | .integer => readInteger? value
  | .double => readDouble? value
  | .boolean => readBoolean? value
  | .bigDecimal => (decimalOfStored? value).map fun d => .string d.text
  | .bigInteger => (bigIntegerOfStored? value).map fun n => .string (Text.intText n)
  | .date => readDate? value
  | .any => some value.toJson

/-- The JSON value of a stored one. -/
def read (t : ScalarType) (value : Bson) : Except CastError Json :=
  match value with
  | .null => .ok .null
  | .undefined => .ok .null
  | value =>
    match t.json? value with
    | some json => .ok json
    | none => .error (.stored value t)

theorem cast_null (t : ScalarType) : t.cast .null = .ok .null := by
  cases t <;> rfl

theorem read_null (t : ScalarType) : t.read .null = .ok .null := rfl

end ScalarType

end Docstore
