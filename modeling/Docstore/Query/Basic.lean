import Docstore.Json.Basic
import Docstore.Path.Basic
import Docstore.Query.Operator

/-!
# Queries

* `Query` : a condition on a document;
* `Query.fieldsRead` : the absolute paths that a query reads;
* `Query.requires` : evaluating the query needs the value of a field.
-/

namespace Docstore

/-- Flags of a regular expression. -/
structure RegexFlags where
  caseInsensitive : Bool
  multiline : Bool
  extended : Bool
  dotAll : Bool
deriving DecidableEq

/-- The letters of the flags that are set. -/
def RegexFlags.letters (f : RegexFlags) : String :=
  String.ofList
    ((if f.caseInsensitive then ['i'] else []) ++ (if f.multiline then ['m'] else []) ++
      (if f.extended then ['x'] else []) ++ (if f.dotAll then ['s'] else []))

/-- A condition on a document. -/
inductive Query where
  /-- A field compared with a literal. -/
  | compare (field : Path) (op : Comparison) (value : Json)
  /-- A field compared with another one. -/
  | compareFields (field : Path) (op : Comparison) (other : Path)
  | combine (op : Connective) (queries : List Query)
  | negate (query : Query)
  /-- A field is, or is not, among literals. -/
  | member (field : Path) (op : Membership) (values : List Json)
  /-- A field is, or is not, among the elements of an array. -/
  | memberOf (field : Path) (op : Membership) (array : Path)
  | regex (field : Path) (pattern : String) (flags : RegexFlags)
  /-- An array contains all, any or none of the literals. -/
  | contains (array : Path) (op : Containment) (values : List Json)
  /-- An element of an array satisfies a query, whose paths start at the element. -/
  | elemMatch (array : Path) (query : Query)

namespace Query

mutual

/-- The absolute paths that a query reads, when its own paths start at `base`. -/
def fieldsRead (base : Path) : Query → List Path
  | .compare field _ _ => [base.join field]
  | .compareFields field _ other => [base.join field, base.join other]
  | .combine _ queries => fieldsReadByAll base queries
  | .negate query => fieldsRead base query
  | .member field _ _ => [base.join field]
  | .memberOf field _ array => [base.join field, base.join array]
  | .regex field _ _ => [base.join field]
  | .contains array _ _ => [base.join array]
  | .elemMatch array query =>
    fieldsRead ((base.join array).child .any) query ++ [base.join array]

/-- The paths that the queries of a list read. -/
def fieldsReadByAll (base : Path) : List Query → List Path
  | [] => []
  | query :: rest => fieldsRead base query ++ fieldsReadByAll base rest

end

/-- A path that the query reads overlaps `field`. -/
def requires (q : Query) (field : Path) : Bool :=
  (q.fieldsRead .root).any fun read => Path.overlaps read field

end Query

end Docstore
