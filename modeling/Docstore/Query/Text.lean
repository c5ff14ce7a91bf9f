import Docstore.Bson.Text
import Docstore.Json.Text
import Docstore.Path.Text
import Docstore.Query.Basic

/-!
# Text of queries

Some messages end with the query they are about, in full: each of its parts stands behind its
label, and strings are quoted.

* `Text.dumpString` : a string in quotes;
* `Path.dump`, `Json.dump`, `Query.dump` : paths, literals and queries in full.

Which characters beyond ASCII can be shown depends on the version of Unicode and is a parameter,
`shown`. The others stand as their code points, as control characters do.
-/

namespace Docstore

/-! ### Quotes, brackets and braces -/

namespace Text

/-- A character inside quotes. -/
def dumpChar (shown : Char → Bool) (c : Char) : List Char :=
  if c = '"' then ['\\', '"']
  else if c = '\\' then ['\\', '\\']
  else if c.toNat = 0x00 then ['\\', '0']
  else if c.toNat = 0x09 then ['\\', 't']
  else if c.toNat = 0x0A then ['\\', 'n']
  else if c.toNat = 0x0D then ['\\', 'r']
  else if (0x20 ≤ c.toNat ∧ c.toNat < 0x7F) ∨ (0x80 ≤ c.toNat ∧ shown c) then [c]
  else ['\\', 'u', '\x7b'] ++ hexOfNat c.toNat ++ ['\x7d']

/-- A string in quotes. -/
def dumpString (shown : Char → Bool) (s : String) : String :=
  String.ofList ('"' :: (s.toList.flatMap (dumpChar shown) ++ ['"']))

/-- Items in brackets. -/
def dumpList (items : List String) : String := "[" ++ String.intercalate ", " items ++ "]"

/-- A name, and in braces the parts of what it names, each behind its label. -/
def dumpRecord (name : String) (parts : List (String × String)) : String :=
  let labelled := parts.map fun part => part.1 ++ ": " ++ part.2
  name ++ " \x7b " ++ String.intercalate ", " labelled ++ " \x7d"

end Text

/-! ### Paths and literals -/

/-- A segment in full. -/
def Segment.dump (shown : Char → Bool) : Segment → String
  | .name key => "Name(" ++ Text.dumpString shown key ++ ")"
  | .index i => "Index(" ++ Text.natText i ++ ")"
  | .any => "Any"

/-- A path in full. -/
def Path.dump (shown : Char → Bool) (p : Path) : String :=
  Text.dumpRecord "Path" [("segments", Text.dumpList (p.map (Segment.dump shown)))]

example :
    Path.dump (fun _ => true) [.name "a", .any] =
      "Path \x7b segments: [Name(\"a\"), Any] \x7d" := rfl

namespace Json

mutual

/-- A literal in full; its numbers are written as in JSON text. -/
def dump (shown : Char → Bool) : Json → String
  | .null => "Null"
  | .bool b => "Bool(" ++ Bson.boolText b ++ ")"
  | .int n => "Number(" ++ Text.intText n ++ ")"
  | .double x => "Number(" ++ x.text layout ++ ")"
  | .string s => "String(" ++ Text.dumpString shown s ++ ")"
  | .array items => "Array " ++ Text.dumpList (itemDumps shown items)
  | .object members =>
    "Object \x7b" ++ String.intercalate ", " (memberDumps shown members) ++ "\x7d"

/-- The elements of an array in full. -/
def itemDumps (shown : Char → Bool) : List Json → List String
  | [] => []
  | item :: rest => item.dump shown :: itemDumps shown rest

/-- The members of an object in full. -/
def memberDumps (shown : Char → Bool) : List (String × Json) → List String
  | [] => []
  | (name, value) :: rest =>
    (Text.dumpString shown name ++ ": " ++ value.dump shown) :: memberDumps shown rest

end

end Json

/-! ### Queries -/

/-- The flags of a regular expression in full. -/
def RegexFlags.dump (f : RegexFlags) : String :=
  Text.dumpRecord "RegexOptions"
    [("case_insensitive", Bson.boolText f.caseInsensitive),
      ("multiline", Bson.boolText f.multiline), ("extended", Bson.boolText f.extended),
      ("dot_all", Bson.boolText f.dotAll)]

namespace Query

mutual

/-- A query in full. -/
def dump (shown : Char → Bool) : Query → String
  | .compare field op value =>
    Text.dumpRecord "ValueComparison"
      [("field", field.dump shown), ("op", op.name), ("rvalue", value.dump shown)]
  | .compareFields field op other =>
    Text.dumpRecord "FieldComparison"
      [("field", field.dump shown), ("op", op.name), ("rfield", other.dump shown)]
  | .combine op queries =>
    Text.dumpRecord "NaryLogical"
      [("op", op.name), ("queries", Text.dumpList (dumpAll shown queries))]
  | .negate query =>
    Text.dumpRecord "UnaryLogical" [("op", "Not"), ("query", dump shown query)]
  | .member field op values =>
    Text.dumpRecord "NaryValueRelational"
      [("field", field.dump shown), ("op", op.name),
        ("values", Text.dumpList (values.map (Json.dump shown)))]
  | .memberOf field op array =>
    Text.dumpRecord "NaryFieldRelational"
      [("field", field.dump shown), ("op", op.name), ("rfield", array.dump shown)]
  | .regex field pattern flags =>
    Text.dumpRecord "RegexMatch"
      [("field", field.dump shown), ("regex", Text.dumpString shown pattern),
        ("options", flags.dump)]
  | .contains array op values =>
    Text.dumpRecord "ArrayContains"
      [("array", array.dump shown), ("op", op.name),
        ("values", Text.dumpList (values.map (Json.dump shown)))]
  | .elemMatch array query =>
    Text.dumpRecord "ArrayMatch"
      [("array", array.dump shown), ("elem_match", dump shown query)]

/-- The queries of a list in full. -/
def dumpAll (shown : Char → Bool) : List Query → List String
  | [] => []
  | query :: rest => dump shown query :: dumpAll shown rest

end

end Query

end Docstore
