import Docstore.Path.Basic
import Docstore.Text.Digits

/-!
# Text of paths

* `Path.text`, `Path.ofText?` : the dotted form, in which a run of digits below `2 ^ 64` is an
  index, `*` is a wildcard and anything else a name;
* `Path.storageText` : the key of a field in a native document, without wildcards;
* `Path.scriptText?` : the accessor form with indices in brackets, for paths without wildcards.
-/

namespace Docstore

/-- The text of a segment. -/
def Segment.text : Segment → String
  | .name key => key
  | .index i => Text.natText i
  | .any => "*"

namespace Path

/-- The parts of a text between its dots; there is at least one. -/
def splitDots : List Char → List (List Char)
  | [] => [[]]
  | c :: rest =>
    if c = '.' then [] :: splitDots rest
    else match splitDots rest with
      | part :: parts => (c :: part) :: parts
      | [] => [[c]]

/-- The segment that a part of the dotted form denotes; an empty part denotes none. -/
def segmentOfPart? (part : List Char) : Option Segment :=
  if part = [] then none
  else if part = ['*'] then some .any
  else match Text.natOfDigits? part with
    | some n =>
      if n < 0x10000000000000000 then some (.index n) else some (.name (String.ofList part))
    | none => some (.name (String.ofList part))

/-- The segments of a list of parts. -/
def segmentsOfParts? : List (List Char) → Option Path
  | [] => some []
  | part :: parts => do
    let segment ← segmentOfPart? part
    let segments ← segmentsOfParts? parts
    return segment :: segments

/-- The path that a dotted text denotes; none when a part of it is empty. The empty text is
the root. -/
def ofText? (text : String) : Option Path :=
  if text.toList = [] then some root else segmentsOfParts? (splitDots text.toList)

/-- The dotted form. -/
def text (p : Path) : String := String.intercalate "." (p.map Segment.text)

/-- The dotted form without wildcards. -/
def storageText (p : Path) : String := text (p.filter fun s => !s.isAny)

/-- The last segment as text. -/
def lastText? (p : Path) : Option String := p.getLast?.map Segment.text

/-- The accessors of the segments; `first` tells whether nothing stands before them. -/
def accessorText? : (first : Bool) → Path → Option String
  | _, [] => some ""
  | _, .any :: _ => none
  | _, .index i :: rest => (accessorText? false rest).map fun t => "[" ++ Text.natText i ++ "]" ++ t
  | first, .name key :: rest =>
    (accessorText? false rest).map fun t => (if first then key else "." ++ key) ++ t

/-- The accessor form; a wildcard has none. -/
def scriptText? (p : Path) : Option String := accessorText? true p

end Path

end Docstore
