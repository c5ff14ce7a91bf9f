/-!
# Paths

A path locates a field of a document from its root.

* `Segment` : a member name, an array index, or any index;
* `Path` : a list of segments, the empty one for the root;
* `Path.overlaps` : one path is a beginning of the other, up to wildcards;
* `Path.compare` : the order of paths, segment by segment;
* `Path.covers` : a path matches the beginning of a concrete position.

Paths are equal exactly when they are equal in the order (`Path.compare_eq_iff`).
-/

namespace Docstore

/-- One step of a path. -/
inductive Segment where
  /-- The member of an object. -/
  | name (key : String)
  /-- The element of an array at an index. -/
  | index (i : Nat)
  /-- Any element of an array. -/
  | any
deriving DecidableEq

namespace Segment

/-- Both segments can address one position: a wildcard matches an index and a wildcard. -/
def overlaps : Segment → Segment → Bool
  | .any, .any => true
  | .any, .index _ => true
  | .index _, .any => true
  | a, b => a == b

/-- The segment is a wildcard. -/
def isAny : Segment → Bool
  | .any => true
  | _ => false

/-- The segment is an index. -/
def isIndex : Segment → Bool
  | .index _ => true
  | _ => false

/-- Names stand before indices, and those before wildcards; names are ordered by characters. -/
def compare : Segment → Segment → Ordering
  | .name a, .name b => Ord.compare a b
  | .name _, _ => .lt
  | .index _, .name _ => .gt
  | .index i, .index j => Ord.compare i j
  | .index _, .any => .lt
  | .any, .any => .eq
  | .any, _ => .gt

theorem compare_eq_iff {a b : Segment} : a.compare b = .eq ↔ a = b := by
  cases a <;> cases b <;> simp [compare]

end Segment

/-- A field locator. -/
abbrev Path := List Segment

namespace Path

/-- The path of the document itself. -/
def root : Path := []

/-- The path of a step below `p`. -/
def child (p : Path) (s : Segment) : Path := p ++ [s]

/-- The path of the position `q` below `p`. -/
def join (p q : Path) : Path := p ++ q

/-- The segments from `n` on; nothing beyond the end. -/
def suffix (p : Path) (n : Nat) : Path := p.drop n

/-- The number of wildcards. -/
def wildcards (p : Path) : Nat := (p.filter Segment.isAny).length

/-- The segment at `n` is an index. -/
def isIndexAt (p : Path) (n : Nat) : Bool := p[n]?.any Segment.isIndex

/-- One path is a beginning of the other, where wildcards stand for any index. -/
def overlaps : Path → Path → Bool
  | a :: p, b :: q => a.overlaps b && overlaps p q
  | _, _ => true

/-- The order of paths: by the first segment that differs, the shorter one first. -/
def compare : Path → Path → Ordering
  | [], [] => .eq
  | [], _ :: _ => .lt
  | _ :: _, [] => .gt
  | a :: p, b :: q => (a.compare b).then (compare p q)

theorem compare_eq_iff {p q : Path} : p.compare q = .eq ↔ p = q := by
  induction p generalizing q with
  | nil => cases q <;> simp [compare]
  | cons a p ih =>
    cases q with
    | nil => simp [compare]
    | cons b q => simp [compare, Ordering.then_eq_eq, Segment.compare_eq_iff, ih]

/-- No segment is a wildcard: the path is a position. -/
def IsConcrete (p : Path) : Prop := Segment.any ∉ p

/-- The wildcard-aware path `p` matches a beginning of the position `c`. -/
def Covers : Path → Path → Prop
  | [], _ => True
  | _ :: _, [] => False
  | .any :: p, .index _ :: c => Covers p c
  | a :: p, b :: c => a = b ∧ Covers p c

end Path

end Docstore
