import Docstore.Proofs.Entity.Ancestors

/-!
# Nodes and their numbers

The nodes of an entity are the document and the fields of its list. They are numbered in that order.

* `Cursor.children` : the nodes directly below a node;
* `Cursor.below_eq_flatMap` : below a node stand its children, each with everything below it;
* `Cursor.below_induction` : what passes from the children to a node holds of every node;
* `Entity.nodes` : the document and every node below it;
* `Field.size` : the number of nodes below a field;
* `Cursor.number` : the number of a node, from the sizes of what its steps pass;
* `Entity.map_number_nodes` : nodes are numbered one by one in the order of the list;
* `Entity.exists_parent_of_mem_fields` : every node but the document is a child of another node;
* `Entity.children_subset_nodes` : and the children of nodes are nodes.

A step passes the node above and the members before its own with everything below them, so a node
comes after its parent.
-/

namespace Docstore

/-! ### Children -/

/-- The members from position `i` on. -/
def Members.cursors (parent : Node) (trail : List Step) : (i : Nat) → Members → List Cursor
  | _, [] => []
  | i, (key, field) :: rest =>
    ⟨.field field, ⟨i, .name key, parent⟩ :: trail⟩ :: Members.cursors parent trail (i + 1) rest

namespace Cursor

variable {c above : Cursor}

/-- The members of an object in order. -/
def members (c : Cursor) : List Cursor := Members.cursors c.node c.trail 0 c.node.members

/-- The nodes directly below: the element of an array, or the members of an object. -/
def children (c : Cursor) : List Cursor :=
  match c.element? with
  | some element => [element]
  | none => c.members

/-- The label of the step to a node, told by the node itself. -/
def label (c : Cursor) : Segment := if c.node.isElement then .any else .name c.name

theorem exists_step_of_mem_cursors {parent : Node} {trail : List Step} {i : Nat}
    {members : Members} (h : c ∈ Members.cursors parent trail i members) :
    ∃ j, c.trail = ⟨j, c.label, parent⟩ :: trail := by
  induction members generalizing i with
  | nil => cases h
  | cons member rest ih =>
    rcases List.mem_cons.1 h with rfl | h
    · exact ⟨i, rfl⟩
    · exact ih h

/-- A child is one step below its parent. -/
theorem exists_step_of_mem_children (h : c ∈ above.children) :
    ∃ j, c.trail = ⟨j, c.label, above.node⟩ :: above.trail := by
  obtain ⟨node, trail⟩ := above
  rcases node with (_ | _ | _ | _ | _) | _ | _
  case field.scalarArray =>
    obtain rfl := List.mem_singleton.1 h
    exact ⟨0, rfl⟩
  case field.objectArray =>
    obtain rfl := List.mem_singleton.1 h
    exact ⟨0, rfl⟩
  all_goals exact exists_step_of_mem_cursors h

theorem parent?_of_mem_children (h : c ∈ above.children) : c.parent? = some above := by
  obtain ⟨j, htrail⟩ := exists_step_of_mem_children h
  rw [parent?, htrail]

theorem path_of_mem_children (h : c ∈ above.children) : c.path = above.path.child c.label := by
  obtain ⟨j, htrail⟩ := exists_step_of_mem_children h
  simp [path, htrail, Path.child]

theorem ancestors_of_mem_children (h : c ∈ above.children) :
    c.ancestors = c :: above.ancestors := by
  obtain ⟨j, htrail⟩ := exists_step_of_mem_children h
  rw [ancestors, htrail]
  rfl

theorem members_subset_children (c : Cursor) : c.members ⊆ c.children := by
  obtain ⟨node, trail⟩ := c
  rcases node with (_ | _ | _ | _ | _) | _ | _
  case field.object => exact List.Subset.refl _
  case objectElement => exact List.Subset.refl _
  all_goals exact List.nil_subset _

theorem findMember?_eq_find? (parent : Node) (trail : List Step) (key : String) (i : Nat)
    (members : Members) :
    findMember? parent trail key i members =
      (Members.cursors parent trail i members).find? fun c => c.name == key := by
  induction members generalizing i with
  | nil => rfl
  | cons member rest ih =>
    obtain ⟨name, f⟩ := member
    by_cases h : name = key
    · simp [findMember?, Members.cursors, Cursor.name, Segment.text, h]
    · simp [findMember?, Members.cursors, Cursor.name, Segment.text, h, ih]

/-- A look-up finds the first member of a name. -/
theorem member?_eq_find? (c : Cursor) (key : String) :
    c.member? key = c.members.find? fun member => member.name == key :=
  findMember?_eq_find? _ _ _ _ _

/-! ### What stands below -/

theorem descendants_eq_flatMap (parent : Node) (trail : List Step) (i : Nat) (members : Members) :
    Members.descendants parent trail i members =
      (Members.cursors parent trail i members).flatMap fun child => child :: child.below := by
  induction members generalizing i with
  | nil => rfl
  | cons member rest ih =>
    rw [Members.descendants, ih]
    rfl

/-- Below a node stand its children, each with everything below it. -/
theorem below_eq_flatMap (c : Cursor) :
    c.below = c.children.flatMap fun child => child :: child.below := by
  obtain ⟨node, trail⟩ := c
  rcases node with (_ | _ | _ | members | _) | _ | _
  case field.object => exact descendants_eq_flatMap _ _ _ _
  case objectElement => exact descendants_eq_flatMap _ _ _ _
  case field.objectArray => exact (List.append_nil _).symm
  all_goals rfl

theorem sublist_below {child : Cursor} (h : child ∈ c.children) :
    List.Sublist (child :: child.below) c.below := by
  rw [below_eq_flatMap c, List.flatMap]
  exact List.sublist_flatten_of_mem (List.mem_map_of_mem h)

theorem children_subset_below (c : Cursor) : c.children ⊆ c.below := fun _ hchild =>
  (sublist_below hchild).subset List.mem_cons_self

/-- What stands below a node is a child of it, or stands below one. -/
theorem exists_child_of_mem_below (h : c ∈ above.below) :
    ∃ child ∈ above.children, c = child ∨ c ∈ child.below := by
  rw [below_eq_flatMap] at h
  simpa using List.mem_flatMap.1 h

/-- What holds of a node when it holds of its children holds of every node. -/
@[elab_as_elim]
theorem below_induction {motive : Cursor → Prop}
    (step : ∀ c, (∀ child ∈ c.children, motive child) → motive c) (c : Cursor) : motive c := by
  -- A child has fewer nodes below it.
  induction hk : c.below.length using Nat.strongRecOn generalizing c with
  | ind k ih =>
    refine step c fun child hchild => ih child.below.length ?_ child rfl
    have hlength := (sublist_below hchild).length_le
    rw [List.length_cons] at hlength
    omega

/-- What is below a node below another is below that one. -/
theorem below_subset_below (h : c ∈ above.below) : c.below ⊆ above.below := by
  revert h
  refine below_induction (fun above ih h => ?_) above
  obtain ⟨child, hchild, hc⟩ := exists_child_of_mem_below h
  have hsubset : child.below ⊆ above.below :=
    List.Subset.trans (List.subset_cons_self _ _) (sublist_below hchild).subset
  rcases hc with rfl | hc
  · exact hsubset
  · exact List.Subset.trans (ih child hchild hc) hsubset

/-- Every node below a node is a child of it or of another node below it. -/
theorem exists_parent_of_mem_below (h : c ∈ above.below) :
    ∃ parent, (parent = above ∨ parent ∈ above.below) ∧ c ∈ parent.children := by
  revert h
  refine below_induction (fun above ih h => ?_) above
  obtain ⟨child, hchild, hc⟩ := exists_child_of_mem_below h
  rcases hc with rfl | hc
  · exact ⟨above, .inl rfl, hchild⟩
  · obtain ⟨parent, hparent, hmem⟩ := ih child hchild hc
    exact ⟨parent, .inr ((sublist_below hchild).subset (List.mem_cons.2 hparent)), hmem⟩

end Cursor

/-! ### Numbers -/

namespace Field

mutual

/-- The number of nodes below a field. -/
def size : Field → Nat
  | .object members => membersSize members
  | .scalarArray _ => 1
  | .objectArray members => 1 + membersSize members
  | _ => 0

/-- The number of nodes that members are and have below them. -/
def membersSize : List (String × Field) → Nat
  | [] => 0
  | (_, field) :: rest => 1 + size field + membersSize rest

end

theorem membersSize_append (members more : List (String × Field)) :
    membersSize (members ++ more) = membersSize members + membersSize more := by
  induction members with
  | nil => simp [membersSize]
  | cons member rest ih =>
    simp only [List.cons_append, membersSize, ih]
    omega

theorem membersSize_take_succ {members rest : List (String × Field)} {key : String} {f : Field}
    {i : Nat} (h : members.drop i = (key, f) :: rest) :
    membersSize (members.take (i + 1)) = membersSize (members.take i) + (1 + f.size) := by
  have hget : members[i]? = some (key, f) := by
    rw [← List.head?_drop, h]
    rfl
  rw [List.take_add_one, hget, membersSize_append]
  simp [membersSize]

end Field

/-- How far a step goes in the numbering: past the node above and past the members before. -/
def Step.ahead (s : Step) : Nat := 1 + Field.membersSize (s.parent.members.take s.index)

/-- The number that the steps of a trail lead to. -/
def trailNumber : List Step → Nat
  | [] => 0
  | step :: rest => step.ahead + trailNumber rest

/-- The number of a node; the document has the number zero. -/
def Cursor.number (c : Cursor) : Nat := trailNumber c.trail

theorem trailNumber_member (parent : Node) (trail : List Step) (label : Segment) (i : Nat) :
    trailNumber (⟨i, label, parent⟩ :: trail) =
      trailNumber trail + 1 + Field.membersSize (parent.members.take i) := by
  simp only [trailNumber, Step.ahead]
  omega

/-- A child comes after its parent. -/
theorem Cursor.number_lt_of_mem_children {c above : Cursor} (h : c ∈ above.children) :
    above.number < c.number := by
  obtain ⟨j, htrail⟩ := exists_step_of_mem_children h
  rw [number, number, htrail, trailNumber_member]
  omega

mutual

/-- The nodes below a field have the numbers that follow its own. -/
theorem Field.map_number_descendants : ∀ (f : Field) (trail : List Step),
    (f.descendants trail).map Cursor.number = List.range' (trailNumber trail + 1) f.size
  | .scalar _, _ => rfl
  | .reference _, _ => rfl
  | .object members, trail =>
    Members.map_number_descendants members (.field (.object members)) trail 0 rfl
  | .scalarArray t, trail => by
    have hnumber : Cursor.number ⟨.scalarElement t, ⟨0, .any, .field (.scalarArray t)⟩ :: trail⟩ =
        trailNumber trail + 1 := trailNumber_member _ _ _ _
    rw [Field.descendants, Field.size, List.map_singleton, hnumber]
    rfl
  | .objectArray members, trail => by
    have hnumber : trailNumber (⟨0, .any, .field (.objectArray members)⟩ :: trail) =
        trailNumber trail + 1 := trailNumber_member _ _ _ _
    have hmembers := Members.map_number_descendants members (.objectElement members)
      (⟨0, .any, .field (.objectArray members)⟩ :: trail) 0 rfl
    rw [hnumber] at hmembers
    rw [Field.descendants, Field.size, Nat.add_comm 1, List.range'_succ, List.map_cons,
      Cursor.number, hnumber]
    exact congrArg _ hmembers

/-- Members have the numbers that follow those of the members before them. -/
theorem Members.map_number_descendants : ∀ (members : List (String × Field)) (parent : Node)
    (trail : List Step) (i : Nat), parent.members.drop i = members →
      (Members.descendants parent trail i members).map Cursor.number =
        List.range' (trailNumber trail + 1 + Field.membersSize (parent.members.take i))
          (Field.membersSize members)
  | [], _, _, _, _ => rfl
  | (name, f) :: rest, parent, trail, i, h => by
    have hrest : parent.members.drop (i + 1) = rest := by
      rw [← List.tail_drop, h]
      rfl
    have hnumber := trailNumber_member parent trail (.name name) i
    have hbelow := Field.map_number_descendants f (⟨i, .name name, parent⟩ :: trail)
    have hafter := Members.map_number_descendants rest parent trail (i + 1) hrest
    rw [hnumber] at hbelow
    rw [Field.membersSize_take_succ h] at hafter
    rw [Members.descendants, List.map_cons, List.map_append, hbelow, hafter, Cursor.number, hnumber,
      Field.membersSize]
    generalize Field.membersSize (parent.members.take i) = before
    have hsize : 1 + f.size + Field.membersSize rest = f.size + Field.membersSize rest + 1 := by
      omega
    have hstart : trailNumber trail + 1 + (before + (1 + f.size)) =
        trailNumber trail + 1 + before + 1 + f.size := by omega
    rw [hsize, List.range'_succ, hstart, List.range'_append_1]

end

theorem Field.length_descendants (f : Field) (trail : List Step) :
    (f.descendants trail).length = f.size := by
  have hlength := congrArg List.length (map_number_descendants f trail)
  rwa [List.length_map, List.length_range'] at hlength

/-! ### The nodes of an entity -/

namespace Entity

variable {e : Entity} {c : Cursor}

/-- The document and every node below it, parents before children. -/
def nodes (e : Entity) : List Cursor := e.root :: e.fields

theorem root_mem_nodes : e.root ∈ e.nodes := List.mem_cons_self

theorem mem_nodes_of_mem_fields (h : c ∈ e.fields) : c ∈ e.nodes := List.mem_cons_of_mem _ h

/-- Nodes are numbered one by one in the order of the list. -/
theorem map_number_fields (e : Entity) :
    e.fields.map Cursor.number = List.range' 1 e.fields.length := by
  rw [fields, Field.length_descendants]
  exact Field.map_number_descendants (.object e.members) []

theorem map_number_nodes (e : Entity) :
    e.nodes.map Cursor.number = List.range e.nodes.length := by
  rw [nodes, List.map_cons, map_number_fields, List.length_cons, List.range_eq_range',
    List.range'_succ]
  rfl

/-- Each node stands in the list at its number. -/
theorem getElem?_nodes (h : c ∈ e.nodes) : e.nodes[c.number]? = some c := by
  obtain ⟨i, hi, hc⟩ := List.getElem_of_mem h
  have hnumber : (e.nodes.map Cursor.number)[i]? = some c.number := by
    rw [List.getElem?_map, List.getElem?_eq_getElem hi, hc]
    rfl
  rw [map_number_nodes, List.getElem?_range hi] at hnumber
  rw [← Option.some.inj hnumber, List.getElem?_eq_getElem hi, hc]

/-- Every node but the document is a child of another node. -/
theorem exists_parent_of_mem_fields (h : c ∈ e.fields) : ∃ above ∈ e.nodes, c ∈ above.children := by
  have hbelow : c ∈ e.root.below := h
  obtain ⟨above, hmem, hchild⟩ := Cursor.exists_parent_of_mem_below hbelow
  exact ⟨above, List.mem_cons.2 hmem, hchild⟩

theorem below_subset_fields (h : c ∈ e.nodes) : c.below ⊆ e.fields := by
  rcases List.mem_cons.1 h with rfl | h
  · exact List.Subset.refl _
  · have hbelow : c ∈ e.root.below := h
    exact Cursor.below_subset_below hbelow

/-- The children of nodes are nodes. -/
theorem children_subset_nodes (h : c ∈ e.nodes) : c.children ⊆ e.nodes := fun _ hchild =>
  mem_nodes_of_mem_fields (below_subset_fields h (c.children_subset_below hchild))

/-- Paths lead from nodes to nodes. -/
theorem mem_nodes_of_follow? {c' : Cursor} {p : Path} (h : c ∈ e.nodes)
    (hfollow : c.follow? p = some c') : c' ∈ e.nodes := by
  rcases Cursor.mem_below_of_follow? hfollow with rfl | hmem
  · exact h
  · exact mem_nodes_of_mem_fields (below_subset_fields h hmem)

end Entity

end Docstore
