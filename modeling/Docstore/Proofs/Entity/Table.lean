import Docstore.Proofs.Entity.Nodes
import Mathlib.Data.List.Find

/-!
# Entities as tables

A declaration can be laid out flat: a table of entries that know their parent and their children by
number. An entry that has children is pushed before them, and its kind is patched once their numbers
are known.

* `Entry`, `Table` : an entry, and entries by their numbers;
* `Table.addField`, `Table.addMembers` : the entries of a field and of members, pushed at the end;
* `Entity.table` : the table of an entity;
* `Table.follow?`, `Table.Climbs` : the ways down by a path and up to the root;
* `Table.pathAlong`, `Table.Lists` : the path on a way up, and the list of what stands below;
* `Entity.table_eq` : the entries are the nodes of the entity in order;
* `Entity.number_follow?`, `Entity.climbs_ancestors` : cursors go down and up as the table does;
* `Entity.pathAlong_ancestors`, `Entity.lists_children` : paths and lists are those of cursors;
* `Entity.table_navigation` : the table is a tree, and all ways through it agree.

What is appended stands behind the placeholder, and what it says about children is patched last, so
the layout of a field is told by what it appends (`Table.addField_eq`).
-/

namespace Docstore

/-- What an entry is, its children by their numbers. -/
inductive Kind where
  | scalar (type : ScalarType)
  | object (members : List Nat)
  | array (element : Nat)
  | scalarElement (type : ScalarType)
  | objectElement (members : List Nat)
  | reference (entity : String)

namespace Kind

/-- The members of an object or of an object element. -/
def members : Kind → List Nat
  | .object members => members
  | .objectElement members => members
  | _ => []

/-- The element of an array. -/
def element? : Kind → Option Nat
  | .array element => some element
  | _ => none

/-- The entries directly below. -/
def children (k : Kind) : List Nat := k.element?.toList ++ k.members

/-- What the entry is of is the element of an array. -/
def isElement : Kind → Bool
  | .scalarElement _ => true
  | .objectElement _ => true
  | _ => false

end Kind

/-- An entry of a table. -/
structure Entry where
  /-- The member name; `*` for an element, nothing for the root. -/
  name : String
  /-- The number of the entry above. -/
  parent? : Option Nat
  kind : Kind

/-- The last segment of the path of an entry. -/
def Entry.label (entry : Entry) : Segment :=
  if entry.kind.isElement then .any else .name entry.name

/-- Entries by their numbers. -/
abbrev Table := List Entry

namespace Table

/-- The table with an entry at its end, and the number of that entry. -/
def push (t : Table) (name : String) (parent : Nat) (kind : Kind) : Table × Nat :=
  (t ++ [⟨name, some parent, kind⟩], t.length)

/-- The table with another kind for an entry. -/
def patch (t : Table) (id : Nat) (kind : Kind) : Table :=
  t.modify id fun entry => { entry with kind }

mutual

/-- The table with the entries of a field at its end, and the number of the field. -/
def addField (t : Table) (parent : Nat) (name : String) : Field → Table × Nat
  | .scalar type => t.push name parent (.scalar type)
  | .reference entity => t.push name parent (.reference entity)
  | .object members =>
    let (t, id) := t.push name parent (.object [])
    let (t, ids) := t.addMembers id members
    (t.patch id (.object ids), id)
  | .scalarArray type =>
    -- The root stands in for the element until that has a number.
    let (t, id) := t.push name parent (.array 0)
    let (t, element) := t.push "*" id (.scalarElement type)
    (t.patch id (.array element), id)
  | .objectArray members =>
    let (t, id) := t.push name parent (.array 0)
    let (t, element) := t.push "*" id (.objectElement [])
    let (t, ids) := t.addMembers element members
    ((t.patch element (.objectElement ids)).patch id (.array element), id)

/-- The table with the entries of members at its end, and the numbers of the members. -/
def addMembers (t : Table) (parent : Nat) : List (String × Field) → Table × List Nat
  | [] => (t, [])
  | (name, field) :: rest =>
    let (t, id) := t.addField parent name field
    let (t, ids) := t.addMembers parent rest
    (t, id :: ids)

end

/-- One step down: names lead to the first member of the name, indices and wildcards to the
element. -/
def step? (t : Table) (id : Nat) (s : Segment) : Option Nat := do
  let entry ← t[id]?
  match s with
  | .name key => entry.kind.members.find? fun member => (t[member]?.map Entry.name) == some key
  | _ => entry.kind.element?

/-- The entry that a path leads to. -/
def follow? (t : Table) (id : Nat) : Path → Option Nat
  | [] => some id
  | s :: rest => (t.step? id s).bind fun below => t.follow? below rest

/-- The way up from an entry: its number and those above, to an entry without a parent. -/
inductive Climbs (t : Table) : Nat → List Nat → Prop
  | root {id : Nat} {entry : Entry} (hentry : t[id]? = some entry)
      (hparent : entry.parent? = none) : Climbs t id [id]
  | step {id parent : Nat} {entry : Entry} {way : List Nat} (hentry : t[id]? = some entry)
      (hparent : entry.parent? = some parent) (h : Climbs t parent way) : Climbs t id (id :: way)

/-- The path of an entry, from the way up from it: the labels on the way, the root apart. -/
def pathAlong (t : Table) (way : List Nat) : Path :=
  ((way.filter fun id => id != 0).filterMap fun id => t[id]?.map Entry.label).reverse

/-- The list of entries below a path, each with its path and followed by the entries below it. -/
inductive Lists (t : Table) : List Nat → Path → List (Path × Nat) → Prop
  | nil {above : Path} : Lists t [] above []
  | cons {id : Nat} {ids : List Nat} {entry : Entry} {above : Path} {below rest : List (Path × Nat)}
      (hentry : t[id]? = some entry)
      (hbelow : Lists t entry.kind.children (above.child entry.label) below)
      (hrest : Lists t ids above rest) :
      Lists t (id :: ids) above ((above.child entry.label, id) :: (below ++ rest))

/-- The parents of a table make it a tree. -/
structure IsTree (t : Table) : Prop where
  /-- The first entry has no parent. -/
  root : ∃ entry, t[0]? = some entry ∧ entry.parent? = none
  /-- The parent of any other entry comes before it and lists it. -/
  parent : ∀ id entry, t[id]? = some entry → id ≠ 0 →
    ∃ parent above, entry.parent? = some parent ∧ parent < id ∧ t[parent]? = some above ∧
      id ∈ above.kind.children

end Table

/-- The table of an entity. -/
def Entity.table (e : Entity) : Table :=
  let (t, ids) := Table.addMembers [⟨"", none, .object []⟩] 0 e.members
  t.patch 0 (.object ids)

namespace Cursor

/-- What a node is, its children by their numbers. -/
def kind (c : Cursor) : Kind :=
  match c.node with
  | .field (.scalar t) => .scalar t
  | .field (.object _) => .object (c.children.map number)
  | .field (.scalarArray _) => .array (c.number + 1)
  | .field (.objectArray _) => .array (c.number + 1)
  | .field (.reference entity) => .reference entity
  | .scalarElement t => .scalarElement t
  | .objectElement _ => .objectElement (c.children.map number)

/-- The entry of a node. -/
def entry (c : Cursor) : Entry := ⟨c.name, c.parent?.map number, c.kind⟩

theorem number_element (node element : Node) (trail : List Step) (h : node.members = []) :
    Cursor.number ⟨element, ⟨0, .any, node⟩ :: trail⟩ = trailNumber trail + 1 := by
  rw [number, trailNumber_member, h]
  rfl

theorem members_kind (c : Cursor) : c.kind.members = c.members.map number := by
  obtain ⟨node, trail⟩ := c
  rcases node with (_ | _ | _ | _ | _) | _ | _ <;> rfl

theorem element?_kind (c : Cursor) : c.kind.element? = c.element?.map number := by
  obtain ⟨node, trail⟩ := c
  rcases node with (_ | _ | t | members | _) | _ | _
  case field.scalarArray =>
    exact congrArg some (number_element _ (.scalarElement t) trail rfl).symm
  case field.objectArray =>
    exact congrArg some (number_element _ (.objectElement members) trail rfl).symm
  all_goals rfl

/-- An entry lists the numbers of the children of its node. -/
theorem children_kind (c : Cursor) : c.kind.children = c.children.map number := by
  rw [Kind.children, element?_kind, members_kind]
  obtain ⟨node, trail⟩ := c
  rcases node with (_ | _ | _ | _ | _) | _ | _ <;> rfl

theorem label_entry (c : Cursor) : c.entry.label = c.label := by
  obtain ⟨node, trail⟩ := c
  rcases node with (_ | _ | _ | _ | _) | _ | _ <;> rfl

end Cursor

namespace Table

variable {t : Table} {id : Nat}

/-- There is one way up. -/
theorem Climbs.unique {way way' : List Nat} (h : t.Climbs id way) (h' : t.Climbs id way') :
    way = way' := by
  induction h generalizing way' with
  | root hentry hparent =>
    cases h' with
    | root => rfl
    | step hentry' hparent' => simp_all
  | step hentry hparent h ih =>
    cases h' with
    | root hentry' hparent' => simp_all
    | step hentry' hparent' h' =>
      obtain rfl := Option.some.inj (hentry.symm.trans hentry')
      obtain rfl := Option.some.inj (hparent.symm.trans hparent')
      rw [ih h']

/-- Entries have one list. -/
theorem Lists.unique {ids : List Nat} {above : Path} {list list' : List (Path × Nat)}
    (h : t.Lists ids above list) (h' : t.Lists ids above list') : list = list' := by
  induction h generalizing list' with
  | nil => cases h'; rfl
  | cons hentry hbelow hrest ihBelow ihRest =>
    obtain _ | ⟨hentry', hbelow', hrest'⟩ := h'
    obtain rfl := Option.some.inj (hentry.symm.trans hentry')
    rw [ihBelow hbelow', ihRest hrest']

/-! ### The layout of fields -/

theorem patch_append (t : Table) (entry : Entry) (rest : Table) (kind : Kind) :
    patch (t ++ entry :: rest) t.length kind = t ++ { entry with kind } :: rest := by
  induction t with
  | nil => rfl
  | cons first t ih => simpa [patch] using ih

mutual

/-- A field is laid out as the entries of its node and of everything below it. -/
theorem addField_eq : ∀ (f : Field) (step : Step) (trail : List Step) (t : Table),
    t.length = trailNumber (step :: trail) →
      t.addField (trailNumber trail) step.label.text f =
        (t ++ ((⟨.field f, step :: trail⟩ :: f.descendants (step :: trail)).map Cursor.entry),
          t.length)
  | .scalar _, _, _, _, _ => rfl
  | .reference _, _, _, _, _ => rfl
  | .object members, step, trail, t, h => by
    have hmembers := addMembers_eq members (.field (.object members)) (step :: trail) 0
      (t ++ [⟨step.label.text, some (trailNumber trail), .object []⟩]) rfl
      (by simp [h, Field.membersSize])
    rw [← h, List.append_assoc, List.singleton_append] at hmembers
    simp only [addField, push, hmembers, patch_append]
    rfl
  | .scalarArray type, step, trail, t, h => by
    simp only [addField, push, List.append_assoc, List.singleton_append, patch_append,
      List.length_append, List.length_singleton]
    rw [h]
    rfl
  | .objectArray members, step, trail, t, h => by
    let array : Entry := ⟨step.label.text, some (trailNumber trail), .array 0⟩
    let down : Step := ⟨0, .any, .field (.objectArray members)⟩
    have helement : (t ++ [array]).length = trailNumber (down :: step :: trail) := by
      rw [List.length_append, h]
      exact (Cursor.number_element _ (.objectElement members) _ rfl).symm
    have hmembers := addMembers_eq members (.objectElement members) (down :: step :: trail) 0
      (t ++ [array] ++ [⟨"*", some t.length, .objectElement []⟩]) rfl
      (by rw [List.length_append, helement]; simp [Field.membersSize])
    rw [← helement, List.append_assoc (t ++ [array]), List.singleton_append] at hmembers
    simp only [addField, push, array] at hmembers ⊢
    rw [hmembers]
    dsimp only
    rw [patch_append, List.append_assoc, List.singleton_append, patch_append, List.length_append, h]
    rfl

/-- Members are laid out one behind the other. -/
theorem addMembers_eq : ∀ (members : List (String × Field)) (parent : Node) (trail : List Step)
    (i : Nat) (t : Table), parent.members.drop i = members →
      t.length = trailNumber trail + 1 + Field.membersSize (parent.members.take i) →
        t.addMembers (trailNumber trail) members =
          (t ++ (Members.descendants parent trail i members).map Cursor.entry,
            (Members.cursors parent trail i members).map Cursor.number)
  | [], _, _, _, _, _, _ => by simp [addMembers, Members.descendants, Members.cursors]
  | (name, f) :: rest, parent, trail, i, t, hdrop, hlength => by
    have hnumber := trailNumber_member parent trail (.name name) i
    have hdropRest : parent.members.drop (i + 1) = rest := by
      rw [← List.tail_drop, hdrop]
      rfl
    let here : List Step := ⟨i, .name name, parent⟩ :: trail
    have hfield : t.addField (trailNumber trail) name f =
        (t ++ (⟨.field f, here⟩ :: f.descendants here).map Cursor.entry, t.length) :=
      addField_eq f ⟨i, .name name, parent⟩ trail t (hlength.trans hnumber.symm)
    have hlengthRest : (t ++ (⟨.field f, here⟩ :: f.descendants here).map Cursor.entry).length =
        trailNumber trail + 1 + Field.membersSize (parent.members.take (i + 1)) := by
      rw [Field.membersSize_take_succ hdrop, List.length_append, List.length_map, List.length_cons,
        Field.length_descendants, hlength]
      omega
    have hid : t.length = Cursor.number ⟨.field f, here⟩ := hlength.trans hnumber.symm
    rw [addMembers, hfield]
    dsimp only
    rw [addMembers_eq rest parent trail (i + 1) _ hdropRest hlengthRest, hid]
    simp [Members.descendants, Members.cursors, here]

end

end Table

namespace Entity

variable {e : Entity} {c : Cursor}

/-- The entries of the table are the nodes of the entity in order. -/
theorem table_eq (e : Entity) : e.table = e.nodes.map Cursor.entry := by
  have hmembers := Table.addMembers_eq e.members (.field (.object e.members)) [] 0
    [⟨"", none, .object []⟩] rfl rfl
  have hzero : trailNumber [] = 0 := rfl
  rw [hzero] at hmembers
  simp only [table, hmembers]
  exact Table.patch_append [] _ _ _

theorem getElem?_table (h : c ∈ e.nodes) : e.table[c.number]? = some c.entry := by
  rw [table_eq, List.getElem?_map, getElem?_nodes h]
  rfl

theorem exists_node_of_getElem?_table {id : Nat} {entry : Entry} (h : e.table[id]? = some entry) :
    ∃ c ∈ e.nodes, c.number = id ∧ c.entry = entry := by
  rw [table_eq, List.getElem?_map] at h
  obtain ⟨c, hc, rfl⟩ := Option.map_eq_some_iff.1 h
  have hmem := List.mem_of_getElem? hc
  refine ⟨c, hmem, ?_, rfl⟩
  have hnumber := congrArg (fun numbers => numbers[id]?) (map_number_nodes e)
  obtain ⟨hid, -⟩ := List.getElem?_eq_some_iff.1 hc
  rw [List.getElem?_map, hc, List.getElem?_range hid] at hnumber
  exact Option.some.inj hnumber

/-! ### Ways through the table -/

theorem exists_parent_of_number_ne_zero (h : c ∈ e.nodes) (hnumber : c.number ≠ 0) :
    ∃ above ∈ e.nodes, c ∈ above.children := by
  rcases List.mem_cons.1 h with rfl | h
  · exact absurd rfl hnumber
  · exact exists_parent_of_mem_fields h

/-- The parents of the table make it a tree. -/
theorem isTree_table (e : Entity) : e.table.IsTree where
  root := ⟨e.root.entry, getElem?_table root_mem_nodes, rfl⟩
  parent id entry hentry hid := by
    obtain ⟨c, hc, rfl, rfl⟩ := exists_node_of_getElem?_table hentry
    obtain ⟨above, habove, hchild⟩ := exists_parent_of_number_ne_zero hc hid
    refine ⟨above.number, above.entry, ?_, Cursor.number_lt_of_mem_children hchild,
      getElem?_table habove, ?_⟩
    · rw [Cursor.entry, Cursor.parent?_of_mem_children hchild]
      rfl
    · rw [Cursor.entry, Cursor.children_kind]
      exact List.mem_map_of_mem hchild

/-- Steps in the table are steps of cursors. -/
theorem number_step? (h : c ∈ e.nodes) (s : Segment) :
    (c.step? s).map Cursor.number = e.table.step? c.number s := by
  rw [Table.step?, getElem?_table h]
  cases s with
  | name key =>
    have hmember : ∀ member ∈ c.members,
        (member.name == key) = ((e.table[member.number]?.map Entry.name) == some key) := by
      intro member hmember
      rw [getElem?_table (children_subset_nodes h (c.members_subset_children hmember))]
      rfl
    change (c.member? key).map Cursor.number =
      c.kind.members.find? fun member => (e.table[member]?.map Entry.name) == some key
    rw [Cursor.members_kind, List.find?_map, Cursor.member?_eq_find?]
    exact congrArg _ (List.find?_congr hmember)
  | index i => exact c.element?_kind.symm
  | any => exact c.element?_kind.symm

/-- Paths lead in the table where they lead cursors. -/
theorem number_follow? (h : c ∈ e.nodes) (p : Path) :
    (c.follow? p).map Cursor.number = e.table.follow? c.number p := by
  induction p generalizing c with
  | nil => rfl
  | cons s rest ih =>
    rw [Cursor.follow?, Table.follow?, ← number_step? h]
    cases hstep : c.step? s with
    | none => rfl
    | some below =>
      have hbelow : c.follow? [s] = some below := by
        rw [Cursor.follow?, hstep]
        rfl
      exact ih (mem_nodes_of_follow? h hbelow)

/-- What holds of the document, and of a child of every node it holds of, holds of every node. -/
@[elab_as_elim]
theorem node_induction {motive : Cursor → Prop} (root : motive e.root)
    (child : ∀ above ∈ e.nodes, motive above → ∀ c ∈ e.nodes, c ∈ above.children → motive c)
    (h : c ∈ e.nodes) : motive c := by
  obtain ⟨node, trail⟩ := c
  induction trail generalizing node with
  | nil =>
    rcases List.mem_cons.1 h with heq | hfields
    · exact heq ▸ root
    · obtain ⟨above, -, hchild⟩ := exists_parent_of_mem_fields hfields
      obtain ⟨j, htrail⟩ := Cursor.exists_step_of_mem_children hchild
      cases htrail
  | cons step rest ih =>
    rcases List.mem_cons.1 h with heq | hfields
    · cases heq
    · obtain ⟨above, habove, hchild⟩ := exists_parent_of_mem_fields hfields
      obtain rfl : ⟨step.parent, rest⟩ = above :=
        Option.some.inj (Cursor.parent?_of_mem_children hchild)
      exact child _ habove (ih _ habove) _ h hchild

/-- The way up in the table is through the ancestors of a node. -/
theorem climbs_ancestors (h : c ∈ e.nodes) :
    e.table.Climbs c.number (c.ancestors.map Cursor.number) := by
  refine node_induction (.root (getElem?_table root_mem_nodes) rfl) ?_ h
  intro above habove ih c hc hchild
  rw [Cursor.ancestors_of_mem_children hchild, List.map_cons]
  refine .step (getElem?_table hc) ?_ ih
  rw [Cursor.entry, Cursor.parent?_of_mem_children hchild]
  rfl

theorem getLast?_ancestors (h : c ∈ e.nodes) : c.ancestors.getLast? = some e.root := by
  refine node_induction rfl ?_ h
  intro above habove ih c hc hchild
  rw [Cursor.ancestors_of_mem_children hchild, List.getLast?_cons, ih]
  rfl

/-- The path of a node is made of the labels on the way up from its entry. -/
theorem pathAlong_ancestors (h : c ∈ e.nodes) :
    e.table.pathAlong (c.ancestors.map Cursor.number) = c.path := by
  refine node_induction rfl ?_ h
  intro above habove ih c hc hchild
  have hnumber : (c.number != 0) = true := by
    have := Cursor.number_lt_of_mem_children hchild
    simp only [bne_iff_ne]
    omega
  rw [Cursor.path_of_mem_children hchild, ← ih, ← c.label_entry, Path.child,
    Cursor.ancestors_of_mem_children hchild]
  simp [Table.pathAlong, hnumber, getElem?_table hc]

/-- The children of nodes are listed one after the other, if each of them is. -/
theorem lists_nodes {p : Path} : ∀ {cs : List Cursor}, (∀ c ∈ cs, c ∈ e.nodes ∧
    c.path = p.child c.label ∧ e.table.Lists (c.children.map Cursor.number) c.path
      (c.below.map fun d => (d.path, d.number))) →
    e.table.Lists (cs.map Cursor.number) p
      ((cs.flatMap fun c => c :: c.below).map fun d => (d.path, d.number))
  | [], _ => .nil
  | c :: cs, h => by
    obtain ⟨⟨hc, hpath, hbelow⟩, hrest⟩ := List.forall_mem_cons.1 h
    rw [← c.label_entry] at hpath
    rw [← Cursor.children_kind, hpath] at hbelow
    have hlist := Table.Lists.cons (getElem?_table hc) hbelow (lists_nodes hrest)
    simpa [← hpath] using hlist

/-- The entries below a node are listed as the nodes below it, with their paths. -/
theorem lists_children (h : c ∈ e.nodes) :
    e.table.Lists (c.children.map Cursor.number) c.path
      (c.below.map fun d => (d.path, d.number)) := by
  revert h
  refine Cursor.below_induction (fun c ih h => ?_) c
  rw [Cursor.below_eq_flatMap]
  refine lists_nodes fun child hchild => ?_
  have hmem := children_subset_nodes h hchild
  exact ⟨hmem, Cursor.path_of_mem_children hchild, ih child hchild hmem⟩

/-- **The table of an entity is a tree, and all ways through it agree.** The parent of every entry
but the first comes before it and lists it. The entries are the nodes of the entity, so that the list
of fields has every number but the root's once, in increasing order; it is the list that the children
of the root give, with the path of each field. The way up from a node is through its ancestors and
ends at the root, and the labels on it are the path of the node. Paths lead to the same nodes in the
table and from cursors, and to nodes whose path they are, with wildcards for indices. Where no scope
declares a name twice, the path of a node leads to it, and any path leads from it where the two
together lead from the root. -/
theorem table_navigation (e : Entity) :
    e.table.IsTree ∧
    (e.table = e.nodes.map Cursor.entry ∧
      e.fields.map Cursor.number = List.range' 1 (e.table.length - 1) ∧
      e.table.Lists e.root.entry.kind.children [] (e.fields.map fun c => (c.path, c.number))) ∧
    (∀ c ∈ e.nodes, e.table.Climbs c.number (c.ancestors.map Cursor.number) ∧
      c.ancestors.getLast? = some e.root ∧
      e.table.pathAlong (c.ancestors.map Cursor.number) = c.path) ∧
    (∀ c ∈ e.nodes, ∀ p, (c.follow? p).map Cursor.number = e.table.follow? c.number p) ∧
    (∀ p c, e.resolve? p = some c → c ∈ e.nodes ∧ c.path = p.labels) ∧
    (e.Distinct → ∀ c ∈ e.nodes, e.resolve? c.path = some c ∧
      ∀ p, c.follow? p = e.resolve? (c.path.join p)) := by
  refine ⟨e.isTree_table, ⟨e.table_eq, ?_, ?_⟩, fun c hc => ⟨climbs_ancestors hc,
    getLast?_ancestors hc, pathAlong_ancestors hc⟩, fun c hc => number_follow? hc,
    fun p c hc => ⟨?_, ?_⟩, fun he c hc => ?_⟩
  · rw [map_number_fields, table_eq, List.length_map, nodes, List.length_cons, Nat.add_sub_cancel]
  · have hlist := lists_children (e := e) root_mem_nodes
    rwa [← Cursor.children_kind] at hlist
  · exact mem_nodes_of_follow? root_mem_nodes hc
  · exact Cursor.path_of_follow? hc
  · have hresolve : e.resolve? c.path = some c := by
      rcases List.mem_cons.1 hc with rfl | hfields
      · rfl
      · exact resolve?_path_of_mem_fields he hfields
    refine ⟨hresolve, fun p => ?_⟩
    have hfollow : e.root.follow? c.path = some c := hresolve
    rw [Path.join, resolve?, Cursor.follow?_append, hfollow]
    rfl

/-- In an order with lines and a customer, the quantity of a line is entry four of seven. The way up
from it is through the element and the lines, and the path on that way leads to it. -/
theorem table_navigation_order :
    let lines : Members := [("article", .scalar .string), ("quantity", .scalar .integer)]
    let order : Entity := ⟨"order", [("lines", .objectArray lines),
      ("customer", .object [("name", .scalar .string)])]⟩
    order.Distinct ∧ order.table.length = 7 ∧ ∃ quantity ∈ order.nodes,
      quantity.path = [.name "lines", .any, .name "quantity"] ∧
      order.table.Climbs 4 [4, 2, 1, 0] ∧ order.table.pathAlong [4, 2, 1, 0] = quantity.path ∧
      order.resolve? quantity.path = some quantity ∧
      ∀ p, quantity.follow? p = order.resolve? (quantity.path.join p) := by
  intro lines order
  have hdistinct : order.Distinct := by
    simp [order, lines, Distinct, Fields.Distinct, Fields.keys, Field.MembersDistinct,
      Field.DistinctNames]
  obtain ⟨-, -, hways, -, -, hresolve⟩ := table_navigation order
  have hmem : order.nodes[4] ∈ order.nodes := List.getElem_mem (by decide)
  obtain ⟨hclimbs, -, hpath⟩ := hways _ hmem
  exact ⟨hdistinct, rfl, _, hmem, rfl, hclimbs, hpath, hresolve hdistinct _ hmem⟩

end Entity

end Docstore
