import Docstore.Mapper
import Docstore.Update.Basic

/-!
# Native updates

Updates become documents with a section for each native operator.

* `Mapper.nativeAssignment`, `nativeRemoval` : the entry of a single field;
* `Sections` : the entries by operator, in order of first use;
* `Mapper.nativeUpdate` : the sections of an update, or why it has no native form.

Only literals that are set on or added to simple fields, and fields that are removed, have a
native form, and only outside of arrays. An update of another kind is valid all the same and
is left to the caller. The first change without a native form decides.
-/

namespace Docstore

/-- Why an update has no native form. -/
inductive NoNativeForm where
  | arrayUpdate (array : Path)
  | unknownField (field : Path)
  | insideArray (field : Path)
  | notLiteral (field : Path)
  | notSimple (field : Path)
deriving DecidableEq

namespace NoNativeForm

/-- The wording of a reason. -/
def reason : NoNativeForm → String
  | .arrayUpdate array => "array update of " ++ array.text
  | .unknownField field => "unknown field " ++ field.text
  | .insideArray field => field.text ++ " is inside an array"
  | .notLiteral field => "non-literal value for " ++ field.text
  | .notSimple field => field.text ++ " is not a simple field"

/-- The reason as a message. -/
def message (r : NoNativeForm) : String := "cannot translate update: " ++ r.reason

end NoNativeForm

/-- Why an update is not taken further. -/
inductive Halt where
  /-- The update is left to the caller. -/
  | fallback (reason : NoNativeForm)
  /-- The update is wrong. -/
  | failure (error : Error)

/-- What becomes of an update: its native form, or the reason why the caller has to do it. -/
inductive UpdateOutcome where
  | native (document : Record)
  | fallback (reason : NoNativeForm)

/-! ### Sections -/

/-- One entry of a native update: an operator, the key of a field, and the operand. -/
structure NativeEntry where
  operator : String
  key : String
  operand : Bson

/-- The entries of a native update by operator, in order of first use. -/
abbrev Sections := Fields Record

namespace Sections

/-- The entries of an operator. -/
def entries (s : Sections) (operator : String) : Record := (Fields.get? operator s).getD []

/-- The sections with one more entry; a key that is present takes the new operand. -/
def add (s : Sections) (entry : NativeEntry) : Sections :=
  Fields.insert entry.operator ((s.entries entry.operator).insert entry.key entry.operand) s

/-- The document of the sections. -/
def document (s : Sections) : Record := s.map fun entry => (entry.1, .document entry.2)

end Sections

/-- The native operator that removes a field. -/
def removalOperator : String := "$unset"

/-- The node of a field that no array encloses. -/
def outsideArrays (e : Entity) (field : Path) : Except Halt Cursor :=
  match e.resolve? field with
  | none => .error (.fallback (.unknownField field))
  | some c => if c.insideArray then .error (.fallback (.insideArray field)) else .ok c

/-- The entry that removes a field. -/
def nativeRemoval (e : Entity) (field : Path) : Except Halt NativeEntry := do
  let _ ← outsideArrays e field
  return ⟨removalOperator, field.storageText, .string ""⟩

/-- The sections with the removal of every field of a list. -/
def addRemovals (e : Entity) : List Path → Sections → Except Halt Sections
  | [], sections => .ok sections
  | field :: rest, sections => do
    let entry ← nativeRemoval e field
    addRemovals e rest (sections.add entry)

namespace Mapper

variable (m : Mapper)

/-- The entry that sets a field to a literal or adds the literal to it. -/
def nativeAssignment (e : Entity) (op : Assignment) (field : Path) (source : Source) :
    Except Halt NativeEntry := do
  let c ← outsideArrays e field
  match source, c.node with
  | .value value, .field (.scalar t) =>
    match inPhase .update (t.cast value) with
    | .ok canonical =>
      return ⟨op.native, field.storageText, m.identify e.root field canonical.stored⟩
    | .error error => throw (.failure error)
  | .value _, _ => throw (.fallback (.notSimple field))
  | _, _ => throw (.fallback (.notLiteral field))

/-- The sections with the assignment of every field of a list. -/
def addAssignments (e : Entity) (op : Assignment) :
    List (Path × Source) → Sections → Except Halt Sections
  | [], sections => .ok sections
  | (field, source) :: rest, sections => do
    let entry ← m.nativeAssignment e op field source
    addAssignments e op rest (sections.add entry)

mutual

/-- The sections with the changes of an update. -/
def addUpdate (e : Entity) : Update → Sections → Except Halt Sections
  | .assign op fields, sections => m.addAssignments e op fields sections
  | .unset fields, sections => addRemovals e fields sections
  | .append array _, _ => .error (.fallback (.arrayUpdate array))
  | .insert array _, _ => .error (.fallback (.arrayUpdate array))
  | .forEach array _ _, _ => .error (.fallback (.arrayUpdate array))
  | .sequence updates, sections => addUpdates e updates sections

/-- The sections with the changes of the updates of a list. -/
def addUpdates (e : Entity) : List Update → Sections → Except Halt Sections
  | [], sections => .ok sections
  | update :: rest, sections => do addUpdates e rest (← addUpdate e update sections)

end

/-- The native form of an update, or the reason why it has none. -/
def nativeUpdate (e : Entity) (u : Update) : Except Error UpdateOutcome :=
  match m.addUpdate e u [] with
  | .ok sections => .ok (.native sections.document)
  | .error (.fallback reason) => .ok (.fallback reason)
  | .error (.failure error) => .error error

end Mapper

end Docstore
