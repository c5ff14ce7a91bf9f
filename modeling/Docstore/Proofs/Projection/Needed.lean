import Docstore.Proofs.Projection.Around

/-!
# What a projection needs

The required fields of a projection are told by the tree of the entity.

* `Cursor.membersBelow` : how many members deep a node lies below another one;
* `Projection.Resolves` : every path of a projection leads to a node, from where it starts;
* `Projection.Needs` : an included part of a projection needs a leaf;
* `Query.fieldsRead_join` : a query that starts at a path reads its own paths below that path;
* `Entity.mem_requiredFields_iff_needs` : a leaf is required exactly when it is needed.

The parts of a projection start at the document or at an element, whose absolute path goes along
with it (`Entity.Stands`).
-/

namespace Docstore

/-- The number of steps to a member on the way down to a node. Steps to elements do not count. -/
def Cursor.membersBelow (above below : Cursor) : Nat :=
  ((below.trail.take (below.trail.length - above.trail.length)).filter fun step =>
    !step.label.isAny).length

namespace Projection

mutual

/-- Every path of a projection leads to a node, those of arrays to arrays. Paths start at `context`,
and inside of an array projection at the element of the array. -/
def Resolves (context : Cursor) : Projection → Prop
  | .field path _ _ => ∃ target, context.follow? path = some target
  | .array path _ filter elements => ∃ array element, context.follow? path = some array ∧
      array.element? = some element ∧
      (∀ q, filter = some q → ∀ read ∈ q.fieldsRead .root, ∃ c, element.follow? read = some c) ∧
      elements.Resolves element
  | .list items => AllResolve context items

/-- Every path of every projection of a list leads to a node. -/
def AllResolve (context : Cursor) : List Projection → Prop
  | [] => True
  | item :: rest => item.Resolves context ∧ AllResolve context rest

end

/-- An included part of a projection whose paths start at `context` needs a leaf. -/
inductive Needs (leaf : Cursor) : (context : Cursor) → Projection → Prop where
  /-- The leaf is the node of a field, or that node lies below the leaf. -/
  | atOrBelow {context target : Cursor} {path : Path} {recursive : Bool}
      (htarget : context.follow? path = some target) (h : leaf ∈ target.ancestors) :
      Needs leaf context (.field path true recursive)
  /-- The node of a field lies above the leaf, no more than one member away unless the field is
  wanted with everything below it. -/
  | above {context target : Cursor} {path : Path} {recursive : Bool}
      (htarget : context.follow? path = some target) (h : target ∈ leaf.ancestors)
      (hlevels : recursive = true ∨ target.membersBelow leaf ≤ 1) :
      Needs leaf context (.field path true recursive)
  | array {context array : Cursor} {path : Path} {filter : Option Query} {elements : Projection}
      (harray : context.follow? path = some array) (h : leaf ∈ array.ancestors) :
      Needs leaf context (.array path true filter elements)
  /-- The query for the elements reads a node at, above or below the leaf. -/
  | filter {context array element c : Cursor} {path read : Path} {q : Query} {elements : Projection}
      (harray : context.follow? path = some array) (helement : array.element? = some element)
      (hread : read ∈ q.fieldsRead .root) (hc : element.follow? read = some c)
      (h : c ∈ leaf.ancestors ∨ leaf ∈ c.ancestors) :
      Needs leaf context (.array path true (some q) elements)
  | elements {context array element : Cursor} {path : Path} {filter : Option Query}
      {elements : Projection} (harray : context.follow? path = some array)
      (helement : array.element? = some element) (h : Needs leaf element elements) :
      Needs leaf context (.array path true filter elements)
  | item {context : Cursor} {items : List Projection} {item : Projection} (hmem : item ∈ items)
      (h : Needs leaf context item) : Needs leaf context (.list items)

end Projection

/-! ### Element queries -/

namespace Query

mutual

/-- A query that starts at a path reads its own paths below that path. -/
theorem fieldsRead_join (base : Path) : ∀ (start : Path) (q : Query),
    q.fieldsRead (base.join start) = (q.fieldsRead start).map base.join
  | start, .compare field op value => by simp [fieldsRead, Path.join]
  | start, .compareFields field op other => by simp [fieldsRead, Path.join]
  | start, .combine op queries => by
    rw [fieldsRead, fieldsRead, fieldsReadByAll_join]
  | start, .negate query => by
    rw [fieldsRead, fieldsRead, fieldsRead_join]
  | start, .member field op values => by simp [fieldsRead, Path.join]
  | start, .memberOf field op array => by simp [fieldsRead, Path.join]
  | start, .regex field pattern flags => by simp [fieldsRead, Path.join]
  | start, .contains array op values => by simp [fieldsRead, Path.join]
  | start, .elemMatch array query => by
    have hinside : ((base.join start).join array).child .any =
        base.join ((start.join array).child .any) := by simp [Path.join, Path.child]
    rw [fieldsRead, fieldsRead, hinside, fieldsRead_join, List.map_append]
    simp [Path.join]

theorem fieldsReadByAll_join (base : Path) : ∀ (start : Path) (queries : List Query),
    fieldsReadByAll (base.join start) queries = (fieldsReadByAll start queries).map base.join
  | start, [] => rfl
  | start, query :: rest => by
    rw [fieldsReadByAll, fieldsReadByAll, fieldsRead_join, fieldsReadByAll_join, List.map_append]

end

end Query

/-! ### Paths and nodes -/

namespace Entity

variable {e : Entity} {p base : Path} {c leaf context : Cursor}

theorem trail_length (h : e.resolve? p = some c) : c.trail.length = p.length := by
  have hpath : c.path = p.labels := Cursor.path_of_follow? h
  simpa [Cursor.path, Path.labels] using congrArg List.length hpath

/-- The levels between two paths are the members between their nodes. -/
theorem levelsBelow_path (h : e.resolve? p = some c) (leaf : Cursor) :
    levelsBelow p leaf.path = c.membersBelow leaf := by
  rw [levelsBelow, Cursor.membersBelow, trail_length h, Cursor.path, List.drop_reverse,
    List.filter_reverse, List.length_reverse, List.length_map, ← List.map_take, List.filter_map,
    List.length_map]
  rfl

theorem trail_length_le_of_mem_ancestors (hp : e.resolve? p = some c)
    (hleaf : e.resolve? leaf.path = some leaf) (h : leaf ∈ c.ancestors) :
    leaf.trail.length ≤ c.trail.length := by
  have hprefix := ((mem_ancestors_iff hleaf hp).1 h).length_le
  rw [trail_length hleaf, trail_length hp]
  simpa [Path.labels] using hprefix

theorem membersBelow_eq_zero (hp : e.resolve? p = some c)
    (hleaf : e.resolve? leaf.path = some leaf) (h : leaf ∈ c.ancestors) :
    c.membersBelow leaf = 0 := by
  have hlength := trail_length_le_of_mem_ancestors hp hleaf h
  rw [Cursor.membersBelow, Nat.sub_eq_zero_of_le hlength]
  rfl

/-- An array that a path overlaps and is no longer than is the node of the path or lies below
it. -/
theorem overlaps_and_length_iff (hp : e.resolve? p = some c)
    (hleaf : e.resolve? leaf.path = some leaf) :
    p.overlaps leaf.path = true ∧ leaf.path.length ≤ p.length ↔ leaf ∈ c.ancestors := by
  rw [overlaps_path_iff hp hleaf]
  constructor
  · rintro ⟨habove | hbelow, hlength⟩
    · have hprefix := (mem_ancestors_iff hp hleaf).1 habove
      have heq : p.labels = leaf.path.labels :=
        hprefix.eq_of_length_le (by simpa [Path.labels] using hlength)
      exact (mem_ancestors_iff hleaf hp).2 (heq ▸ List.prefix_rfl)
    · exact hbelow
  · intro h
    have hlength := trail_length_le_of_mem_ancestors hp hleaf h
    rw [trail_length hleaf, trail_length hp] at hlength
    exact ⟨.inr h, hlength⟩

end Entity

/-! ### Needs -/

namespace Projection

variable {e : Entity} {base path : Path} {context leaf target : Cursor} {included recursive : Bool}

/-- A field part compares the node of its path with the leaf. -/
theorem needs_field_iff (htarget : context.follow? path = some target) :
    Needs leaf context (.field path included recursive) ↔
      included = true ∧ (leaf ∈ target.ancestors ∨
        target ∈ leaf.ancestors ∧ (recursive = true ∨ target.membersBelow leaf ≤ 1)) := by
  constructor
  · intro h
    cases h with
    | atOrBelow htarget' h =>
      obtain rfl := Option.some.inj (htarget.symm.trans htarget')
      exact ⟨rfl, .inl h⟩
    | above htarget' h hlevels =>
      obtain rfl := Option.some.inj (htarget.symm.trans htarget')
      exact ⟨rfl, .inr ⟨h, hlevels⟩⟩
  · rintro ⟨rfl, h | ⟨h, hlevels⟩⟩
    · exact .atOrBelow htarget h
    · exact .above htarget h hlevels

/-- An array part reads the array, and the query and the projection of its elements. -/
theorem needs_array_iff {array element : Cursor} {filter : Option Query} {elements : Projection}
    (harray : context.follow? path = some array) (helement : array.element? = some element) :
    Needs leaf context (.array path included filter elements) ↔
      included = true ∧ ((∃ q, filter = some q ∧ ∃ read ∈ q.fieldsRead .root,
        ∃ c, element.follow? read = some c ∧ (c ∈ leaf.ancestors ∨ leaf ∈ c.ancestors)) ∨
        elements.Needs leaf element ∨ leaf ∈ array.ancestors) := by
  constructor
  · intro h
    cases h with
    | array harray' h =>
      obtain rfl := Option.some.inj (harray.symm.trans harray')
      exact ⟨rfl, .inr (.inr h)⟩
    | filter harray' helement' hread hc h =>
      obtain rfl := Option.some.inj (harray.symm.trans harray')
      obtain rfl := Option.some.inj (helement.symm.trans helement')
      exact ⟨rfl, .inl ⟨_, rfl, _, hread, _, hc, h⟩⟩
    | elements harray' helement' h =>
      obtain rfl := Option.some.inj (harray.symm.trans harray')
      obtain rfl := Option.some.inj (helement.symm.trans helement')
      exact ⟨rfl, .inr (.inl h)⟩
  · rintro ⟨rfl, ⟨q, rfl, read, hread, c, hc, h⟩ | h | h⟩
    · exact .filter harray helement hread hc h
    · exact .elements harray helement h
    · exact .array harray h

theorem needs_list_iff {items : List Projection} :
    Needs leaf context (.list items) ↔ ∃ item ∈ items, item.Needs leaf context := by
  constructor
  · intro h
    cases h with
    | item hmem h => exact ⟨_, hmem, h⟩
  · rintro ⟨item, hmem, h⟩
    exact .item hmem h

/-- The paths that an element query reads overlap that of a leaf when their nodes are at, above or
below the leaf. -/
theorem any_overlaps_iff {q : Query} (hbase : e.Stands base context)
    (hq : ∀ read ∈ q.fieldsRead .root, ∃ c, context.follow? read = some c)
    (hleaf : e.resolve? leaf.path = some leaf) :
    ((q.fieldsRead base).any fun read => Path.overlaps read leaf.path) = true ↔
      ∃ read ∈ q.fieldsRead .root, ∃ c, context.follow? read = some c ∧
        (c ∈ leaf.ancestors ∨ leaf ∈ c.ancestors) := by
  have hreads : q.fieldsRead base = (q.fieldsRead .root).map base.join := by
    rw [← Query.fieldsRead_join, Path.join, Path.root, List.append_nil]
  rw [hreads, List.any_map, List.any_eq_true]
  refine exists_congr fun read => and_congr_right fun hread => ?_
  obtain ⟨c, hc⟩ := hq read hread
  have hp : e.resolve? (base.join read) = some c := (hbase.resolve?_join read).trans hc
  rw [Function.comp_apply, Entity.overlaps_path_iff hp hleaf]
  simp [hc]

mutual

/-- Whether a leaf is required by a part of a projection is whether the part needs it. -/
theorem requiresUnder_iff_needs : ∀ {P : Projection} {base : Path} {context : Cursor},
    e.Stands base context → P.Resolves context → e.resolve? leaf.path = some leaf →
      (P.requiresUnder base leaf.path = true ↔ P.Needs leaf context)
  | .field path included recursive, base, context, hbase, hP, hleaf => by
    rw [Resolves] at hP
    obtain ⟨target, htarget⟩ := hP
    have hp : e.resolve? (base.join path) = some target := (hbase.resolve?_join path).trans htarget
    -- At or below the leaf no members lie in between, so the count of levels excludes nothing.
    have hzero : leaf ∈ target.ancestors → target.membersBelow leaf = 0 :=
      Entity.membersBelow_eq_zero hp hleaf
    rw [needs_field_iff htarget]
    simp only [requiresUnder, Bool.and_eq_true, Bool.or_eq_true, decide_eq_true_eq,
      Entity.overlaps_path_iff hp hleaf, Entity.levelsBelow_path hp]
    constructor
    · rintro ⟨⟨hincluded, habove | hbelow⟩, hlevels⟩
      · exact ⟨hincluded, .inr ⟨habove, hlevels⟩⟩
      · exact ⟨hincluded, .inl hbelow⟩
    · rintro ⟨hincluded, hbelow | ⟨habove, hlevels⟩⟩
      · exact ⟨⟨hincluded, .inr hbelow⟩, .inr (by rw [hzero hbelow]; exact Nat.zero_le 1)⟩
      · exact ⟨⟨hincluded, .inl habove⟩, hlevels⟩
  | .array path included filter elements, base, context, hbase, hP, hleaf => by
    rw [Resolves] at hP
    obtain ⟨array, element, harray, helement, hfilter, helements⟩ := hP
    have hp : e.resolve? (base.join path) = some array := (hbase.resolve?_join path).trans harray
    have hinside := hbase.element harray helement
    -- An array that is above the leaf needs nothing by itself: its path is the shorter one.
    have harrayNode := Entity.overlaps_and_length_iff hp hleaf
    rw [and_comm] at harrayNode
    rw [needs_array_iff harray helement]
    cases filter with
    | none =>
      simp only [requiresUnder, Bool.and_eq_true, Bool.or_eq_true, decide_eq_true_eq, harrayNode,
        requiresUnder_iff_needs hinside helements hleaf]
      simp
    | some q =>
      simp only [requiresUnder, Bool.and_eq_true, Bool.or_eq_true, decide_eq_true_eq, harrayNode,
        requiresUnder_iff_needs hinside helements hleaf,
        any_overlaps_iff hinside (hfilter q rfl) hleaf]
      simp [or_assoc]
  | .list items, base, context, hbase, hP, hleaf => by
    rw [Resolves] at hP
    rw [needs_list_iff, requiresUnder, anyRequiresUnder_iff_needs hbase hP hleaf]

theorem anyRequiresUnder_iff_needs : ∀ {items : List Projection} {base : Path} {context : Cursor},
    e.Stands base context → AllResolve context items → e.resolve? leaf.path = some leaf →
      (anyRequiresUnder base leaf.path items = true ↔ ∃ item ∈ items, item.Needs leaf context)
  | [], base, context, _, _, _ => by simp [anyRequiresUnder]
  | item :: rest, base, context, hbase, hitems, hleaf => by
    rw [anyRequiresUnder, Bool.or_eq_true, requiresUnder_iff_needs hbase hitems.1 hleaf,
      anyRequiresUnder_iff_needs hbase hitems.2 hleaf, List.exists_mem_cons_iff]

end

end Projection

namespace Entity

variable {e : Entity} {P : Projection}

/-- The required fields of a projection are leaves, and a leaf is among them exactly when an
included part of the projection needs it. -/
theorem mem_requiredFields_iff_needs (he : e.Distinct) (hP : P.Resolves e.root) :
    (∀ p ∈ e.requiredFields { projection := some P },
        ∃ leaf ∈ e.fields, leaf.node.isLeaf = true ∧ leaf.path = p) ∧
      ∀ leaf ∈ e.fields, leaf.node.isLeaf = true →
        (leaf.path ∈ e.requiredFields { projection := some P } ↔ P.Needs leaf e.root) := by
  constructor
  · intro p hp
    obtain ⟨leaf, hleaf, rfl⟩ := List.mem_map.1 (mem_requiredFields.1 hp).1
    obtain ⟨hfields, hleaf⟩ := List.mem_filter.1 hleaf
    exact ⟨leaf, hfields, hleaf, rfl⟩
  · intro leaf hfields hleaf
    have hmem : leaf.path ∈ e.leaves :=
      List.mem_map_of_mem (List.mem_filter.2 ⟨hfields, hleaf⟩)
    have hrequires : Demand.requires { projection := some P } leaf.path =
        P.requiresUnder .root leaf.path := by
      simp [Demand.requires, Projection.requires]
    rw [mem_requiredFields, and_iff_right hmem, hrequires,
      Projection.requiresUnder_iff_needs e.stands_root hP (resolve?_path_of_mem_fields he hfields)]

/-- The name of a lead is a direct member, the city is not; of the rows the query reads the size. -/
theorem mem_requiredFields_iff_needs_lead :
    let lead : Field := .object [("name", .scalar .string),
      ("home", .object [("city", .scalar .string)])]
    let e : Entity := ⟨"table", [("lead", lead), ("rows", .objectArray [("size", .scalar .integer),
      ("open", .scalar .boolean)])]⟩
    let P : Projection := .list [.field [.name "lead"] true false,
      .array [.name "rows"] true (some (.compare [.name "size"] .eq (.int 1)))
        (.field [.name "open"] false false)]
    e.Distinct ∧ P.Resolves e.root ∧ e.requiredFields { projection := some P } =
        [[.name "lead", .name "name"], [.name "rows", .any, .name "size"]] ∧
      (∃ leaf ∈ e.fields, leaf.path = [.name "rows", .any, .name "size"] ∧ P.Needs leaf e.root) ∧
      ∃ leaf ∈ e.fields, leaf.path = [.name "lead", .name "home", .name "city"] ∧
        ¬ P.Needs leaf e.root := by
  intro lead e P
  have he : e.Distinct := by
    simp [e, lead, Distinct, Fields.Distinct, Fields.keys, Field.MembersDistinct,
      Field.DistinctNames]
  have hP : P.Resolves e.root := by
    refine ⟨⟨_, rfl⟩, ⟨_, _, rfl, rfl, fun q hq read hread => ?_, _, rfl⟩, trivial⟩
    obtain rfl := Option.some.inj hq
    obtain rfl := List.mem_singleton.1 hread
    exact ⟨_, rfl⟩
  have hfields : e.requiredFields { projection := some P } =
      [[.name "lead", .name "name"], [.name "rows", .any, .name "size"]] := by decide
  obtain ⟨hleaves, hneeds⟩ := mem_requiredFields_iff_needs he hP
  refine ⟨he, hP, hfields, ?_, ?_⟩
  · obtain ⟨leaf, hmem, hleaf, hpath⟩ :=
      hleaves [.name "rows", .any, .name "size"] (by simp [hfields])
    refine ⟨leaf, hmem, hpath, (hneeds leaf hmem hleaf).1 ?_⟩
    simp [hfields, hpath]
  · refine ⟨_, .tail _ (.tail _ (.tail _ (.head _))), rfl, fun hcity => ?_⟩
    have hmem := (hneeds _ (.tail _ (.tail _ (.tail _ (.head _)))) rfl).2 hcity
    rw [hfields] at hmem
    revert hmem
    decide

end Entity

end Docstore
