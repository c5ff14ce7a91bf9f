import Docstore.Entity.Basic
import Docstore.Path.Text

/-!
# Positions in an entity

The declaration of an entity is a tree. A cursor stands at one of its nodes and knows the way
back to the root.

* `Node` : a field, or the element of an array;
* `Cursor` : a node and the steps from it up to the root;
* `Cursor.follow?` : the node that a path leads to, relative to a cursor;
* `Cursor.name` : the label of the last step, `*` for the element of an array;
* `Cursor.path`, `Cursor.address` : the labels and the positions of the steps from the root;
* `Cursor.ancestors` : a cursor and everything above it;
* `Entity.fields` : every node below the root, parents before children.

Following a path is following its parts (`Cursor.follow?_append`). Addresses tell nodes apart
even where a scope declares a name twice, and their lexicographic order is the order of
`Entity.fields`.
-/

namespace Docstore

/-- What stands at a position of an entity. -/
inductive Node where
  /-- A named field, or the document itself as an object. -/
  | field (field : Field)
  /-- The element of an array of simple values. -/
  | scalarElement (type : ScalarType)
  /-- The element of an array of objects. -/
  | objectElement (members : List (String × Field))

namespace Node

/-- The scalar type of simple fields and simple elements. -/
def scalarType? : Node → Option ScalarType
  | .field (.scalar t) => some t
  | .scalarElement t => some t
  | _ => none

/-- The node is an array. -/
def isArray : Node → Bool
  | .field (.scalarArray _) => true
  | .field (.objectArray _) => true
  | _ => false

/-- The node is the element of an array. -/
def isElement : Node → Bool
  | .scalarElement _ => true
  | .objectElement _ => true
  | .field _ => false

/-- The members of an object or of an object element. -/
def members : Node → Members
  | .field (.object members) => members
  | .objectElement members => members
  | _ => []

/-- The element node of an array. -/
def element? : Node → Option Node
  | .field (.scalarArray t) => some (.scalarElement t)
  | .field (.objectArray members) => some (.objectElement members)
  | _ => none

/-- The node has values that are stored and has no node with values below it. -/
def isLeaf : Node → Bool
  | .field f => f.isLeaf
  | _ => false

end Node

/-- A step from a node to one directly below it. -/
structure Step where
  /-- The position among the nodes below `parent`. -/
  index : Nat
  /-- A member name, or the wildcard for an element. -/
  label : Segment
  /-- The node above. -/
  parent : Node

/-- A node of an entity and the steps that lead to it, the last one first. -/
structure Cursor where
  node : Node
  trail : List Step

namespace Cursor

/-- The cursor stands at the document itself. -/
def isRoot (c : Cursor) : Bool := c.trail.isEmpty

/-- The segments of the steps from the root. -/
def path (c : Cursor) : Path := (c.trail.map Step.label).reverse

/-- The positions of the steps from the root. -/
def address (c : Cursor) : List Nat := (c.trail.map Step.index).reverse

/-- The name of the node: the label of the step to it, and nothing for the document itself. -/
def name (c : Cursor) : String :=
  match c.trail with
  | [] => ""
  | step :: _ => step.label.text

/-- The node above. -/
def parent? (c : Cursor) : Option Cursor :=
  match c.trail with
  | [] => none
  | step :: rest => some ⟨step.parent, rest⟩

/-- The nodes above, from a trail. -/
def above : List Step → List Cursor
  | [] => []
  | step :: rest => ⟨step.parent, rest⟩ :: above rest

/-- The cursor itself and everything above it, ending with the root. -/
def ancestors (c : Cursor) : List Cursor := c :: above c.trail

/-- The first member of a name among members that start at position `i`. -/
def findMember? (parent : Node) (trail : List Step) (name : String) :
    (i : Nat) → Members → Option Cursor
  | _, [] => none
  | i, (key, field) :: rest =>
    if key = name then some ⟨.field field, ⟨i, .name key, parent⟩ :: trail⟩
    else findMember? parent trail name (i + 1) rest

/-- The member of a name. -/
def member? (c : Cursor) (name : String) : Option Cursor :=
  findMember? c.node c.trail name 0 c.node.members

/-- The element of an array. -/
def element? (c : Cursor) : Option Cursor :=
  c.node.element?.map fun node => ⟨node, ⟨0, .any, c.node⟩ :: c.trail⟩

/-- One step down: names lead to members, indices and wildcards to the element. -/
def step? (c : Cursor) : Segment → Option Cursor
  | .name key => c.member? key
  | .index _ => c.element?
  | .any => c.element?

/-- The node that a path leads to. -/
def follow? (c : Cursor) : Path → Option Cursor
  | [] => some c
  | segment :: rest => (c.step? segment).bind fun below => below.follow? rest

/-- Following a path is following its parts one after the other. -/
theorem follow?_append (c : Cursor) (p q : Path) :
    c.follow? (p ++ q) = (c.follow? p).bind fun below => below.follow? q := by
  induction p generalizing c with
  | nil => rfl
  | cons s p ih =>
    simp only [List.cons_append, follow?]
    cases c.step? s with
    | none => rfl
    | some below => simpa using ih below

/-- The node is or lies inside an array. -/
def insideArray (c : Cursor) : Bool :=
  c.ancestors.any fun a => a.node.isArray || a.node.isElement

end Cursor

mutual

/-- Every node below a field, parents first. -/
def Field.descendants (trail : List Step) : Field → List Cursor
  | .scalar _ => []
  | .reference _ => []
  | .object members => Members.descendants (.field (.object members)) trail 0 members
  | .scalarArray t => [⟨.scalarElement t, ⟨0, .any, .field (.scalarArray t)⟩ :: trail⟩]
  | .objectArray members =>
    let inside := ⟨0, .any, .field (.objectArray members)⟩ :: trail
    ⟨.objectElement members, inside⟩ ::
      Members.descendants (.objectElement members) inside 0 members

/-- The members from position `i` on, each with every node below it. -/
def Members.descendants (parent : Node) (trail : List Step) :
    (i : Nat) → List (String × Field) → List Cursor
  | _, [] => []
  | i, (key, field) :: rest =>
    let here := ⟨i, .name key, parent⟩ :: trail
    ⟨.field field, here⟩ ::
      (Field.descendants here field ++ Members.descendants parent trail (i + 1) rest)

end

namespace Entity

/-- The cursor at the document itself. -/
def root (e : Entity) : Cursor := ⟨.field (.object e.members), []⟩

/-- The node that a path leads to from the root. -/
def resolve? (e : Entity) (p : Path) : Option Cursor := e.root.follow? p

/-- Every node below the root, parents before children. -/
def fields (e : Entity) : List Cursor := Field.descendants [] (.object e.members)

end Entity

end Docstore
