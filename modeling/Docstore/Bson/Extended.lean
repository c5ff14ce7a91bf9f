import Docstore.Bson.Basic
import Docstore.Json.Basic
import Docstore.Number.Reading
import Docstore.Text.Base64
import Docstore.Time.Instant

/-!
# Extended JSON

Stored values that JSON has no kind for are written as objects with a reserved key such as
`$oid`, and objects of exactly such a form are read as those values.

* `Bson.ofJson` : the stored value of free-form JSON;
* `Bson.recognize` : the value that the fields of one object stand for;
* `Bson.toJson` : the relaxed form, in which integers and finite doubles are plain numbers;
* `Bson.toPlainJson` : the form inside the scope of code, in which binary data of the generic
  kind is an array of bytes, doubles that are not finite are null and dates are milliseconds.

The reserved forms of the two kinds that are left out, `$numberDecimal`, `$numberDecimalBytes` and
`$dbPointer`, are not among those that are read: an object of such a form stays a document.

`Bson.toJson` maps arrays element by element and documents field by field
(`toJson_array`, `toJson_document`).
-/

namespace Docstore.Bson

/-! ### Reading -/

/-- An integer of 64 bits, when it is in range. -/
def int64OfInt? (n : Int) : Option Int64 :=
  if -0x8000000000000000 ≤ n ∧ n < 0x8000000000000000 then some (Int64.ofInt n) else none

/-- An integer of 32 bits, when it is in range. -/
def int32OfInt? (n : Int) : Option Int32 :=
  if -0x80000000 ≤ n ∧ n < 0x80000000 then some (Int32.ofInt n) else none

/-- The characters in ascending order. -/
def sortOptions (options : String) : String :=
  String.ofList (options.toList.mergeSort fun a b => a.toNat ≤ b.toNat)

/-- The text of a double that is not finite, or any text of a double. -/
def doubleOfText? (s : String) : Option Double :=
  if s = "Infinity" then some (.infinity false)
  else if s = "-Infinity" then some (.infinity true)
  else if s = "NaN" then some (.nan false)
  else Double.ofText? s

/-- The two digits of a binary kind. -/
def subtypeOfText? (s : String) : Option UInt8 := do
  let [subtype] ← Text.bytesOfHex? s.toList | none
  return subtype

/-- A half of a timestamp: a word of 32 bits. -/
def wordOfInt? (n : Int) : Option UInt32 :=
  if 0 ≤ n ∧ n < 0x100000000 then some (UInt32.ofNat n.toNat) else none

/-- A binary kind given as a number of 32 bits. -/
def subtypeOfInt32? (n : Int32) : Option UInt8 :=
  if 0 ≤ n.toInt ∧ n.toInt < 256 then some (UInt8.ofNat n.toInt.toNat) else none

/-- The value of `$binary`: base 64 text with its kind as two digits or, where no such text is
given, binary data of the generic kind with the kind that it is to have as a number. -/
def binaryOf? (body : Record) : Option Bson :=
  match body.get? "base64" with
  | some (.string text) => do
    let bytes ← Text.bytesOfBase64? text.toList
    let some (.string kind) := body.get? "subType" | none
    let subtype ← subtypeOfText? kind
    return .binary subtype bytes
  | _ => do
    let some (.binary 0 bytes) := body.get? "bytes" | none
    let some (.int32 kind) := body.get? "subType" | none
    let subtype ← subtypeOfInt32? kind
    return .binary subtype bytes

/-- The value of `$timestamp`. Integers of 32 bits are taken as the words they are. -/
def timestampOf? (body : Record) : Option Bson :=
  match body.get? "t", body.get? "i" with
  | some (.int32 t), some (.int32 i) => some (.timestamp t.toUInt32 i.toUInt32)
  | some (.int64 t), some (.int64 i) => do
    let time ← wordOfInt? t.toInt
    let increment ← wordOfInt? i.toInt
    return .timestamp time increment
  | _, _ => none

/-- The value of `$regularExpression`; its options are sorted. -/
def regexOf? (body : Record) : Option Bson :=
  match body.get? "pattern", body.get? "options" with
  | some (.string pattern), some (.string options) => some (.regex pattern (sortOptions options))
  | _, _ => none

/-- An integer one of either width. -/
def isOne : Bson → Bool
  | .int32 n => n == 1
  | .int64 n => n == 1
  | _ => false

/-- The value that an object with one key stands for. -/
def recognizeOne? (key : String) (value : Bson) : Option Bson :=
  match key, value with
  | "$oid", .string s => (ObjectId.ofText? s).map .objectId
  | "$symbol", .string s => some (.symbol s)
  | "$numberInt", .string s => ((Text.intOfText? s.toList).bind int32OfInt?).map .int32
  | "$numberLong", .string s => ((Text.intOfText? s.toList).bind int64OfInt?).map .int64
  | "$numberDouble", .string s => (doubleOfText? s).map .double
  | "$binary", .document body => binaryOf? body
  | "$code", .string s => some (.code s)
  | "$timestamp", .document body => timestampOf? body
  | "$regularExpression", .document body => regexOf? body
  | "$date", .int64 millis => some (.date millis)
  | "$date", .string s => (Instant.ofText? s).map .date
  | "$minKey", v => if v.isOne then some .minKey else none
  | "$maxKey", v => if v.isOne then some .maxKey else none
  | "$undefined", .bool true => some .undefined
  | _, _ => none

/-- The value that code with a scope stands for, its two keys in either order. -/
def recognizeTwo? (fields : Record) : Option Bson :=
  match fields.get? "$code", fields.get? "$scope" with
  | some (.string source), some (.document scope) => some (.codeWithScope source scope)
  | _, _ => none

/-- The value that the fields of an object stand for; without a reserved form, a document. -/
def recognize (fields : Record) : Bson :=
  let value? := match fields with
    | [(key, value)] => recognizeOne? key value
    | [_, _] => recognizeTwo? fields
    | _ => none
  value?.getD (.document fields)

mutual

/-- The stored value of free-form JSON, innermost objects first. It fails with the first
integer that does not fit 64 signed bits. -/
def ofJson : Json → Except Int Bson
  | .null => .ok .null
  | .bool b => .ok (.bool b)
  | .int n =>
    match int64OfInt? n with
    | some m => .ok (.int64 m)
    | none => .error n
  | .double x => .ok (.double (.finite x))
  | .string s => .ok (.string s)
  | .array items => do return .array (← itemsOfJson items)
  | .object members => do return recognize (← fieldsOfJson members)

/-- The stored values of the elements of an array. -/
def itemsOfJson : List Json → Except Int (List Bson)
  | [] => .ok []
  | item :: rest => do
    let value ← ofJson item
    return value :: (← itemsOfJson rest)

/-- The stored fields of the members of an object. -/
def fieldsOfJson : List (String × Json) → Except Int (List (String × Bson))
  | [] => .ok []
  | (name, member) :: rest => do
    let value ← ofJson member
    return (name, value) :: (← fieldsOfJson rest)

end

/-! ### Writing -/

/-- A 64-bit integer as text under `$numberLong`. -/
def longJson (n : Int64) : Json := .object [("$numberLong", .string (Text.intText n.toInt))]

/-- A double that is not finite, under `$numberDouble`. -/
def notFiniteJson (text : String) : Json := .object [("$numberDouble", .string text)]

/-- A date in relaxed form: as text from 1970 to the year 9999. -/
def dateJson (millis : Int64) : Json :=
  if 0 ≤ millis.toInt then
    match Instant.text? millis.toInt with
    | some text => .object [("$date", .string text)]
    | none => .object [("$date", longJson millis)]
  else .object [("$date", longJson millis)]

/-- Pattern and options of a regular expression. -/
def regexJson (pattern options : String) : Json :=
  .object [("$regularExpression",
    .object [("pattern", .string pattern), ("options", .string options)])]

/-- Both words of a timestamp. -/
def timestampJson (time increment : UInt32) : Json :=
  .object [("$timestamp", .object [("t", .int time.toNat), ("i", .int increment.toNat)])]

/-- Binary data and its kind. -/
def binaryJson (subtype : UInt8) (bytes : List UInt8) : Json :=
  .object [("$binary", .object
    [("base64", .string (String.ofList (Text.base64OfBytes bytes))),
      ("subType", .string (String.ofList (Text.hexOfByte subtype)))])]

mutual

/-- The value as it stands inside the scope of code. -/
def toPlainJson : Bson → Json
  | .null => .null
  | .bool b => .bool b
  | .int32 n => .int n.toInt
  | .int64 n => .int n.toInt
  | .double (.finite x) => .double x
  | .double _ => .null
  | .string s => .string s
  | .array items => .array (itemsToPlainJson items)
  | .document fields => .object (fieldsToPlainJson fields)
  | .objectId id => .object [("$oid", .string id.text)]
  | .date millis => .object [("$date", longJson millis)]
  | .regex pattern options => regexJson pattern options
  | .timestamp time increment => timestampJson time increment
  | .binary subtype bytes =>
    if subtype = 0 then .array (bytes.map fun b => .int b.toNat) else binaryJson subtype bytes
  | .symbol s => .object [("$symbol", .string s)]
  | .code source => .object [("$code", .string source)]
  | .codeWithScope source scope =>
    .object [("$code", .string source), ("$scope", .object (fieldsToPlainJson scope))]
  | .undefined => .object [("$undefined", .bool true)]
  | .minKey => .object [("$minKey", .int 1)]
  | .maxKey => .object [("$maxKey", .int 1)]

/-- The elements of an array inside the scope of code. -/
def itemsToPlainJson : List Bson → List Json
  | [] => []
  | item :: rest => item.toPlainJson :: itemsToPlainJson rest

/-- The fields of a document inside the scope of code. -/
def fieldsToPlainJson : List (String × Bson) → List (String × Json)
  | [] => []
  | (name, value) :: rest => (name, value.toPlainJson) :: fieldsToPlainJson rest

end

mutual

/-- The relaxed form of a stored value. -/
def toJson : Bson → Json
  | .null => .null
  | .bool b => .bool b
  | .int32 n => .int n.toInt
  | .int64 n => .int n.toInt
  | .double (.finite x) => .double x
  | .double (.infinity false) => notFiniteJson "Infinity"
  | .double (.infinity true) => notFiniteJson "-Infinity"
  | .double (.nan false) => notFiniteJson "NaN"
  | .double (.nan true) => notFiniteJson "-NaN"
  | .string s => .string s
  | .array items => .array (itemsToJson items)
  | .document fields => .object (fieldsToJson fields)
  | .objectId id => .object [("$oid", .string id.text)]
  | .date millis => dateJson millis
  | .regex pattern options => regexJson pattern (sortOptions options)
  | .timestamp time increment => timestampJson time increment
  | .binary subtype bytes => binaryJson subtype bytes
  | .symbol s => .object [("$symbol", .string s)]
  | .code source => .object [("$code", .string source)]
  | .codeWithScope source scope =>
    .object [("$code", .string source), ("$scope", .object (fieldsToPlainJson scope))]
  | .undefined => .object [("$undefined", .bool true)]
  | .minKey => .object [("$minKey", .int 1)]
  | .maxKey => .object [("$maxKey", .int 1)]

/-- The relaxed forms of the elements of an array. -/
def itemsToJson : List Bson → List Json
  | [] => []
  | item :: rest => item.toJson :: itemsToJson rest

/-- The relaxed forms of the fields of a document. -/
def fieldsToJson : List (String × Bson) → List (String × Json)
  | [] => []
  | (name, value) :: rest => (name, value.toJson) :: fieldsToJson rest

end

theorem itemsToJson_eq_map (items : List Bson) : itemsToJson items = items.map toJson := by
  induction items with
  | nil => rfl
  | cons item rest ih => simp [itemsToJson, ih]

theorem fieldsToJson_eq_map (fields : List (String × Bson)) :
    fieldsToJson fields = fields.map fun f => (f.1, f.2.toJson) := by
  induction fields with
  | nil => rfl
  | cons field rest ih => simp [fieldsToJson, ih]

theorem toJson_array (items : List Bson) :
    toJson (.array items) = .array (items.map toJson) := by
  simp [toJson, itemsToJson_eq_map]

theorem toJson_document (fields : List (String × Bson)) :
    toJson (.document fields) = .object (fields.map fun f => (f.1, f.2.toJson)) := by
  simp [toJson, fieldsToJson_eq_map]

end Docstore.Bson
