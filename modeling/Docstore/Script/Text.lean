import Docstore.Script.Basic
import Docstore.Text.Digits

/-!
# Script text

The text under which a predicate is handed to the store: compact, with one blank around
comparisons and one before each opening brace.

* `FieldRef.text`, `Expr.text`, `Stmt.text` : the parts;
* `Script.text` : the whole function.
-/

namespace Docstore

/-- The text of one accessor. -/
def Accessor.text : Accessor → String
  | .name key => "." ++ key
  | .index i => "[" ++ Text.natText i ++ "]"
  | .var v => "[" ++ v ++ "]"

/-- The text of a chain of accessors. -/
def FieldRef.text (f : FieldRef) : String := "this" ++ String.join (f.map Accessor.text)

/-- The text of an expression. -/
def Expr.text : Expr → String
  | .field ref => ref.text
  | .length ref => ref.text ++ ".length"
  | .var v => v
  | .bool b => if b then "true" else "false"
  | .compare op left right => left.text ++ " " ++ op.symbol ++ " " ++ right.text
  | .not inner => "!(" ++ inner.text ++ ")"

/-- Text in braces. -/
def inBraces (text : String) : String := "\x7b" ++ text ++ "\x7d"

mutual

/-- The text of a statement. -/
def Stmt.text : Stmt → String
  | .declare v value => "var " ++ v ++ "=" ++ value.text ++ ";"
  | .assign v value => v ++ "=" ++ value.text ++ ";"
  | .forEach v array body =>
    "for(var " ++ v ++ "=0;" ++ v ++ "<" ++ array.text ++ ".length;" ++ v ++ "++) " ++
      inBraces (Stmt.blockText body)
  | .branch cond yes [] => "if(" ++ cond.text ++ ") " ++ inBraces (Stmt.blockText yes)
  | .branch cond yes (s :: no) =>
    "if(" ++ cond.text ++ ") " ++ inBraces (Stmt.blockText yes) ++ " else " ++
      inBraces (s.text ++ Stmt.blockText no)
  | .result value => "return " ++ value.text ++ ";"
  | .leave => "break;"

/-- The text of statements in a row. -/
def Stmt.blockText : List Stmt → String
  | [] => ""
  | s :: rest => s.text ++ Stmt.blockText rest

end

/-- The text of a predicate. -/
def Script.text (s : Script) : String := "function() " ++ inBraces (Stmt.blockText s.body)

end Docstore
