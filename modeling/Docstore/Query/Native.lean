import Docstore.Mapper
import Docstore.Query.Predicate
import Docstore.Script.Text

/-!
# Native queries

Queries become documents of native query operators.

* `Mapper.nativeQuery` : the native form of a query;
* `Mapper.queryIn` : the same inside an element match, where paths start at the element.

Literals are cast to the type of the field and take their stored form, identifiers their one
form. A comparison of fields with each other becomes the text of a script, and has to stand at
the top level because scripts start at the record.
-/

namespace Docstore

/-- The stored forms of literals of a type; there has to be one. -/
def literals (t : ScalarType) (field : Path) (values : List Json) : Except Error (List Bson) :=
  if values.isEmpty then .error (.emptyValueList field)
  else values.mapM fun v => do return (← inPhase .query (t.cast v)).stored

/-- The condition that an operator holds of a field. -/
def underOperator (field op : String) (operand : Bson) : Record :=
  [(field, .document [(op, operand)])]

/-- A regular expression on a field. -/
def nativeRegex (field : Path) (pattern : String) (flags : RegexFlags) : Record :=
  let options := if flags.letters = "" then [] else [("$options", .string flags.letters)]
  [(field.storageText, .document (("$regex", .string pattern) :: options))]

/-- Some alternative holds: the array holds one of the literals. -/
def containsAny (key : String) (values : List Bson) : Record :=
  [("$or", .array (values.map fun v => .document [(key, v)]))]

/-- The containment of literals in an array. -/
def nativeContains (key : String) (op : Containment) (values : List Bson) : Record :=
  match op with
  | .all => underOperator key "$all" (.array values)
  | .any => containsAny key values
  | .none => [("$not", .document (containsAny key values))]

/-- The type of a node that is an array of simple values. -/
def Node.scalarItems? : Node → Option ScalarType
  | .field (.scalarArray t) => some t
  | _ => none

/-- The node is an array of objects. -/
def Node.isObjectArray : Node → Bool
  | .field (.objectArray _) => true
  | _ => false

namespace Mapper

variable (m : Mapper)

/-- The comparison of a field with a literal. -/
def nativeComparison (context : Cursor) (field : Path) (op : Comparison) (value : Json) :
    Except Error Record := do
  let c ← context.resolve field
  match c.node.scalarType? with
  | none => throw (.invalidComparison field op value)
  | some t =>
    let supported := if op.isEquality then t.supportsEquality else t.supportsOrdering
    if supported then
      let canonical ← inPhase .query (t.cast value)
      let literal := m.identify context field canonical.stored
      return if op = .eq then [(field.storageText, literal)]
        else underOperator field.storageText op.native literal
    else throw (.invalidComparison field op value)

/-- The membership of a field in a list of literals. -/
def nativeMembership (context : Cursor) (field : Path) (op : Membership) (values : List Json) :
    Except Error Record := do
  let c ← context.resolve field
  match c.node.scalarType?.filter ScalarType.supportsEquality with
  | none => throw (.invalidField field)
  | some t =>
    let values ← literals t field values
    return underOperator field.storageText op.native
      (.array (values.map (m.identify context field)))

mutual

/-- The native form of a query whose paths start at `context`. -/
def queryIn (e : Entity) (context : Cursor) : Query → Except Error Record
  | .compare field op value => m.nativeComparison context field op value
  | .compareFields field op other =>
    if context.isRoot then do
      let script ← (Query.compareFields field op other).script e
      return [("$where", .string script.text)]
    else .error (.nestedFieldComparison (.compareFields field op other))
  | .memberOf field op array =>
    if context.isRoot then do
      let script ← (Query.memberOf field op array).script e
      return [("$where", .string script.text)]
    else .error (.nestedFieldComparison (.memberOf field op array))
  | .combine op queries => do
    return [(op.native, .array (← queriesIn e context queries))]
  | .negate query => do
    return [(negationOperator, .array [.document (← queryIn e context query)])]
  | .member field op values => m.nativeMembership context field op values
  | .regex field pattern flags => do
    let _ ← context.resolve field
    return nativeRegex field pattern flags
  | .contains array op values => do
    let c ← context.resolve array
    match c.node.scalarItems? with
    | none => throw (.invalidField array)
    | some t => return nativeContains array.storageText op (← literals t array values)
  | .elemMatch array query => do
    let c ← context.resolve array
    match c.node.isObjectArray, c.element? with
    | true, some element => do
      let inner ← queryIn e element query
      return underOperator array.storageText "$elemMatch" (.document inner)
    | _, _ => throw (.invalidField array)

/-- The native forms of the queries of a list. -/
def queriesIn (e : Entity) (context : Cursor) : List Query → Except Error (List Bson)
  | [] => .ok []
  | query :: rest => do
    let record ← queryIn e context query
    return .document record :: (← queriesIn e context rest)

end

/-- The native form of a query on an entity. -/
def nativeQuery (e : Entity) (q : Query) : Except Error Record := m.queryIn e e.root q

end Mapper

end Docstore
