import Docstore.Query.Text
import Docstore.Scalar.Cast

/-!
# Errors

* `Phase` : the work that was under way;
* `Error` : why a document, a record or a request was refused;
* `Error.code` : the stable name of the kind of failure;
* `Error.message` : its wording, up to the query that some errors are about;
* `Error.fullMessage` : the wording with that query.
-/

namespace Docstore

/-- The work that was under way when a value could not be converted. -/
inductive Phase where
  | encode
  | decode
  | query
  | update
deriving DecidableEq

/-- The name of a phase in messages. -/
def Phase.name : Phase → String
  | .encode => "encode"
  | .decode => "decode"
  | .query => "translate_query"
  | .update => "translate_update"

/-- Why a document, a record or a request was refused. -/
inductive Error where
  /-- The field that names the entity is missing. -/
  | missingEntity (field : String)
  /-- No entity has that name. -/
  | unknownEntity (name : String)
  /-- The document names its entity by something other than text. -/
  | entityNotText (value : Json)
  /-- The record names its entity by something other than text. -/
  | storedEntityNotText (value : Bson)
  /-- The field is not declared or has another shape. -/
  | invalidField (path : Path)
  /-- The document is not an object. -/
  | notAnObject (document : Json)
  /-- A sort key is the root path. -/
  | emptySortKey
  /-- A part of a dotted path is empty. -/
  | emptySegment (text : String)
  /-- The type of the field has no such comparison. -/
  | invalidComparison (field : Path) (op : Comparison) (value : Json)
  /-- The path cannot be followed or written. -/
  | unusablePath (path : Path)
  /-- The query has a native form and needs no predicate. -/
  | noPredicate (query : Query)
  /-- A list of values is empty. -/
  | emptyValueList (field : Path)
  /-- References are not stored. -/
  | referenceField (path : Path) (entity : String)
  /-- The query compares fields with each other inside an element match. -/
  | nestedFieldComparison (query : Query)
  /-- A value could not be converted. -/
  | conversion (phase : Phase) (cause : CastError)

namespace Error

/-- The stable name of the kind of failure. -/
def code : Error → String
  | .missingEntity _ => "NO_OBJECT_TYPE"
  | .unknownEntity _ => "INVALID_OBJECTTYPE"
  | .entityNotText _ => "INVALID_OBJECTTYPE"
  | .storedEntityNotText _ => "INVALID_OBJECTTYPE"
  | .invalidField _ => "INVALID_FIELD"
  | .notAnObject _ => "INVALID_FIELD"
  | .emptySortKey => "INVALID_FIELD"
  | .emptySegment _ => "INVALID_FIELD"
  | .invalidComparison _ _ _ => "INVALID_COMPARISON"
  | .unusablePath _ => "TRANSLATION_ERROR"
  | .noPredicate _ => "TRANSLATION_ERROR"
  | .emptyValueList _ => "EMPTY_VALUE_LIST"
  | .referenceField _ _ => "UNSUPPORTED_FEATURE"
  | .nestedFieldComparison _ => "UNSUPPORTED_FEATURE"
  | .conversion _ _ => "INVALID_OBJECT"

/-- What a message says after the name of its kind, up to the query that it may end with. -/
def detail : Error → String
  | .missingEntity field => ": missing '" ++ field ++ "'"
  | .unknownEntity name => ": " ++ name
  | .entityNotText value => ": " ++ value.text
  | .storedEntityNotText value => ": " ++ value.text
  | .invalidField path => ": " ++ path.text
  | .notAnObject document => ": " ++ document.text
  | .emptySortKey => ": empty sort key"
  | .emptySegment text => ": empty segment in path '" ++ text ++ "'"
  | .invalidComparison field op value =>
    ": " ++ field.text ++ " " ++ op.name ++ " " ++ value.text
  | .unusablePath path => ": " ++ path.text
  | .noPredicate _ => ": no generated predicate for"
  | .emptyValueList field => ": " ++ field.text
  | .referenceField path entity => ": reference field " ++ path.text ++ " to " ++ entity
  | .nestedFieldComparison _ => ": field comparison inside element match"
  | .conversion phase cause => " in " ++ phase.name ++ ": " ++ cause.message

/-- The query at the end of a message, with what leads to it. -/
def ending (shown : Char → Bool) : Error → String
  | .noPredicate query => " " ++ query.dump shown
  | .nestedFieldComparison query => ": " ++ query.dump shown
  | _ => ""

/-- The wording of an error, up to the query that it may end with. -/
def message (e : Error) : String := e.code ++ e.detail

/-- The wording of an error with the query that it may end with. -/
def fullMessage (shown : Char → Bool) (e : Error) : String := e.message ++ e.ending shown

end Error

/-- The result of a conversion, its failure placed in a phase. -/
def inPhase {α : Type} (phase : Phase) : Except CastError α → Except Error α
  | .ok a => .ok a
  | .error cause => .error (.conversion phase cause)

end Docstore
