import Docstore.Proofs.Entity.Ancestors
import Docstore.Proofs.Projection.Required
import Docstore.Proofs.Query.Literals

/-!
# Required fields and the nodes that are read

Whether a field is required is decided by comparing paths. What it means is told by the tree of the
entity.

* `Entity.LeafAround` : a leaf at, above or below a node that is read;
* `Path.overlaps_iff_prefix` : to overlap is to be a beginning of the other path;
* `Mapper.exists_resolve?_of_queryIn` : every path that a query with a native form reads leads to a
  node;
* `Entity.requiredFields_iff_leafAround` : the required fields of such a query, or of a sort, are
  the leaves around what is read.

A query tracks the node where its paths start, the list of what it reads the absolute path of that
node (`Entity.Stands`).
-/

namespace Docstore

/-! ### Overlap in the tree -/

namespace Path

variable {p q : Path}

theorem overlaps_eq_true_iff_stepLabel {s : Segment} (hs : Cursor.stepLabel s = s) (t : Segment) :
    s.overlaps t = true ↔ s = Cursor.stepLabel t := by
  cases s with
  | index i => cases hs
  | name key => cases t <;> simp [Segment.overlaps, Cursor.stepLabel]
  | any => cases t <;> simp [Segment.overlaps, Cursor.stepLabel]

/-- A path without indices overlaps another one when it or the labels of the other are a beginning
of what remains. -/
theorem overlaps_iff_prefix (hp : p.labels = p) :
    p.overlaps q = true ↔ p <+: q.labels ∨ q.labels <+: p := by
  induction p generalizing q with
  | nil =>
    rw [overlaps.eq_def]
    exact iff_of_true rfl (.inl List.nil_prefix)
  | cons s p ih =>
    cases q with
    | nil => exact iff_of_true rfl (.inr List.nil_prefix)
    | cons t q =>
      obtain ⟨hs, hp⟩ := List.cons.inj hp
      have hlabels : Path.labels (t :: q) = Cursor.stepLabel t :: Path.labels q := rfl
      rw [overlaps, Bool.and_eq_true, overlaps_eq_true_iff_stepLabel hs, ih hp, hlabels,
        List.cons_prefix_cons, List.cons_prefix_cons, eq_comm (a := Cursor.stepLabel t),
        and_or_left]

end Path

/-- A leaf at, above or below a node that one of the paths leads to. -/
def Entity.LeafAround (e : Entity) (paths : List Path) (leaf : Cursor) : Prop :=
  leaf ∈ e.fields ∧ leaf.node.isLeaf = true ∧
    ∃ p ∈ paths, ∃ c, e.resolve? p = some c ∧ (c ∈ leaf.ancestors ∨ leaf ∈ c.ancestors)

namespace Entity

variable {e : Entity} {p : Path} {c leaf : Cursor} {reads : List Path}

/-- A path overlaps that of a leaf when one of the nodes is above the other or they are the
same. -/
theorem overlaps_path_iff (hp : e.resolve? p = some c) (hleaf : e.resolve? leaf.path = some leaf) :
    p.overlaps leaf.path = true ↔ c ∈ leaf.ancestors ∨ leaf ∈ c.ancestors := by
  have hlabels : leaf.path = leaf.path.labels := Cursor.path_of_follow? hleaf
  rw [Path.overlaps_comm, Path.overlaps_iff_prefix hlabels.symm, mem_ancestors_iff hp hleaf,
    mem_ancestors_iff hleaf hp, ← hlabels, or_comm]

/-- When every path that is read leads to a node, the leaves whose paths overlap what is read are
those around it. -/
theorem overlaps_iff_leafAround (he : e.Distinct)
    (hreads : ∀ read ∈ reads, ∃ c, e.resolve? read = some c) :
    p ∈ e.leaves ∧ (reads.any fun read => Path.overlaps read p) = true ↔
      ∃ leaf, e.LeafAround reads leaf ∧ leaf.path = p := by
  rw [leaves, List.mem_map, List.any_eq_true]
  constructor
  · rintro ⟨⟨leaf, hmem, rfl⟩, read, hread, hoverlaps⟩
    obtain ⟨hfields, hleaf⟩ := List.mem_filter.1 hmem
    obtain ⟨c, hc⟩ := hreads read hread
    exact ⟨leaf, ⟨hfields, hleaf, read, hread, c, hc,
      (overlaps_path_iff hc (resolve?_path_of_mem_fields he hfields)).1 hoverlaps⟩, rfl⟩
  · rintro ⟨leaf, ⟨hfields, hleaf, read, hread, c, hc, haround⟩, rfl⟩
    exact ⟨⟨leaf, List.mem_filter.2 ⟨hfields, hleaf⟩, rfl⟩, read, hread,
      (overlaps_path_iff hc (resolve?_path_of_mem_fields he hfields)).2 haround⟩

end Entity

/-! ### What a native query reads -/

/-- Both operands of a query that has a script lead to nodes. -/
theorem Query.exists_resolve?_of_script {e : Entity} {q : Query} {s : Script}
    (hs : q.script e = .ok s) : ∀ p ∈ q.fieldsRead .root, ∃ c, e.resolve? p = some c := by
  have hboth : ∀ {field other : Path} {l r : Cursor}, e.root.resolve field = .ok l →
      e.root.resolve other = .ok r → ∀ p ∈ [field, other], ∃ c, e.resolve? p = some c := by
    intro field other l r hl hr p hp
    rcases List.mem_pair.1 hp with rfl | rfl
    · exact ⟨l, Cursor.follow?_of_resolve hl⟩
    · exact ⟨r, Cursor.follow?_of_resolve hr⟩
  cases q with
  | compareFields field op other =>
    obtain ⟨l, r, hl, hr, -⟩ := script_compareFields_eq_ok_iff.1 hs
    exact hboth hl hr
  | memberOf field op array =>
    obtain ⟨l, r, -, -, hl, -, hr, -⟩ := script_memberOf_eq_ok_iff.1 hs
    exact hboth hl hr
  | _ => cases hs

namespace Entity

variable {e : Entity} {base p : Path} {context c : Cursor}

theorem Stands.exists_resolve? (h : e.Stands base context) (hc : context.follow? p = some c) :
    ∀ read ∈ [base.join p], ∃ c, e.resolve? read = some c := by
  intro read hread
  obtain rfl := List.mem_singleton.1 hread
  exact ⟨c, (h.resolve?_join p).trans hc⟩

/-- A context that is the document itself stands at the root path. -/
theorem Stands.base_eq_root (h : e.Stands base context) (hroot : context.isRoot = true) :
    base = .root := by
  rcases h.base_eq with rfl | ⟨above, rfl⟩
  · rfl
  · rw [isRoot_eq_false h.resolve?_eq] at hroot
    cases hroot

end Entity

namespace Mapper

variable {m : Mapper} {e : Entity}

mutual

/-- Every path that a query with a native form reads leads to a node. -/
theorem exists_resolve?_of_queryIn : ∀ {q : Query} {base : Path} {context : Cursor} {r : Record},
    e.Stands base context → m.queryIn e context q = .ok r →
      ∀ p ∈ q.fieldsRead base, ∃ c, e.resolve? p = some c
  | .compare field op value, base, context, r, hbase, h => by
    rw [queryIn] at h
    obtain ⟨c, t, hc, -⟩ := nativeComparison_of_eq_ok h
    exact hbase.exists_resolve? hc
  | .member field op values, base, context, r, hbase, h => by
    rw [queryIn] at h
    obtain ⟨c, t, hc, -⟩ := nativeMembership_of_eq_ok h
    exact hbase.exists_resolve? hc
  | .contains array op values, base, context, r, hbase, h => by
    obtain ⟨c, t, hc, -⟩ := queryIn_contains_of_eq_ok h
    exact hbase.exists_resolve? hc
  | .regex field pattern flags, base, context, r, hbase, h => by
    rw [queryIn] at h
    obtain ⟨c, hc, -⟩ := bind_eq_ok_iff.1 h
    exact hbase.exists_resolve? (Cursor.follow?_of_resolve hc)
  | .elemMatch array query, base, context, r, hbase, h => by
    obtain ⟨c, element, hc, helement, heq⟩ := queryIn_elemMatch_of_eq_ok h
    rw [heq query] at h
    obtain ⟨inner, hinner, -⟩ := map_eq_ok_iff.1 h
    rw [Query.fieldsRead]
    exact List.forall_mem_append.2
      ⟨exists_resolve?_of_queryIn (hbase.element hc helement) hinner, hbase.exists_resolve? hc⟩
  | .combine op queries, base, context, r, hbase, h => by
    rw [queryIn] at h
    obtain ⟨bs, hbs, -⟩ := bind_eq_ok_iff.1 h
    rw [Query.fieldsRead]
    exact exists_resolve?_of_queriesIn hbase hbs
  | .negate query, base, context, r, hbase, h => by
    rw [queryIn] at h
    obtain ⟨inner, hinner, -⟩ := bind_eq_ok_iff.1 h
    rw [Query.fieldsRead]
    exact exists_resolve?_of_queryIn hbase hinner
  | .compareFields field op other, base, context, r, hbase, h => by
    rw [queryIn] at h
    obtain ⟨hroot, s, hs, -⟩ := exists_script_of_eq_ok h
    obtain rfl := hbase.base_eq_root hroot
    exact Query.exists_resolve?_of_script hs
  | .memberOf field op array, base, context, r, hbase, h => by
    rw [queryIn] at h
    obtain ⟨hroot, s, hs, -⟩ := exists_script_of_eq_ok h
    obtain rfl := hbase.base_eq_root hroot
    exact Query.exists_resolve?_of_script hs

theorem exists_resolve?_of_queriesIn : ∀ {queries : List Query} {base : Path} {context : Cursor}
    {bs : List Bson}, e.Stands base context → m.queriesIn e context queries = .ok bs →
      ∀ p ∈ Query.fieldsReadByAll base queries, ∃ c, e.resolve? p = some c
  | [], base, context, bs, hbase, h => by
    rw [Query.fieldsReadByAll]
    nofun
  | query :: rest, base, context, bs, hbase, h => by
    rw [queriesIn] at h
    obtain ⟨r, hr, h⟩ := bind_eq_ok_iff.1 h
    obtain ⟨more, hmore, -⟩ := bind_eq_ok_iff.1 h
    rw [Query.fieldsReadByAll]
    exact List.forall_mem_append.2
      ⟨exists_resolve?_of_queryIn hbase hr, exists_resolve?_of_queriesIn hbase hmore⟩

end

end Mapper

/-! ### What is required -/

namespace Entity

variable {e : Entity}

/-- Every path that a query with a native form reads leads to a node, and the required fields of the
query are the leaves at, above and below these nodes. So it is with a sort whose keys lead to
nodes. -/
theorem requiredFields_iff_leafAround (m : Mapper) (he : e.Distinct) :
    (∀ q r, m.nativeQuery e q = .ok r →
      (∀ read ∈ q.fieldsRead .root, ∃ c, e.resolve? read = some c) ∧
      ∀ p, p ∈ e.requiredFields { query := some q } ↔
        ∃ leaf, e.LeafAround (q.fieldsRead .root) leaf ∧ leaf.path = p) ∧
    ∀ s : SortOrder, (∀ key ∈ s, ∃ c, e.resolve? key.field = some c) →
      ∀ p, p ∈ e.requiredFields { sort := some s } ↔
        ∃ leaf, e.LeafAround (s.map SortKey.field) leaf ∧ leaf.path = p := by
  refine ⟨fun q r hr => ?_, fun s hs p => ?_⟩
  · have hreads := Mapper.exists_resolve?_of_queryIn e.stands_root hr
    refine ⟨hreads, fun p => ?_⟩
    have hquery : Demand.requires { query := some q } p = q.requires p := by
      simp [Demand.requires]
    rw [mem_requiredFields, hquery, Query.requires, overlaps_iff_leafAround he hreads]
  · have hreads : ∀ read ∈ s.map SortKey.field, ∃ c, e.resolve? read = some c := by
      intro read hread
      obtain ⟨key, hkey, rfl⟩ := List.mem_map.1 hread
      exact hs key hkey
    have hsort : Demand.requires { sort := some s } p =
        (s.map SortKey.field).any fun read => Path.overlaps read p := by
      simp [Demand.requires, SortOrder.requires, Function.comp_def]
    rw [mem_requiredFields, hsort, overlaps_iff_leafAround he hreads]

/-- An element match reads its array, so every leaf below the array is required. A sort by an
element of simple values requires the array above it. -/
theorem requiredFields_iff_leafAround_rows :
    let m : Mapper := { entities := [] }
    let lead : Field := .object [("age", .scalar .integer), ("name", .scalar .string)]
    let e : Entity := ⟨"table", [("title", .scalar .string), ("tags", .scalarArray .string),
      ("rows", .objectArray [("lead", lead), ("open", .scalar .boolean)])]⟩
    let q : Query := .elemMatch [.name "rows"]
      (.compare [.name "lead", .name "name"] .eq (.string "Ann"))
    let s : SortOrder := [⟨[.name "tags", .index 0], true⟩]
    let rows : Path := [.name "rows", .any]
    e.Distinct ∧ (∃ r, m.nativeQuery e q = .ok r) ∧
      q.fieldsRead .root = [rows ++ [.name "lead", .name "name"], [.name "rows"]] ∧
      e.requiredFields { query := some q } = [rows ++ [.name "lead", .name "age"],
        rows ++ [.name "lead", .name "name"], rows ++ [.name "open"]] ∧
      (∃ leaf, e.LeafAround (q.fieldsRead .root) leaf ∧ leaf.path = rows ++ [.name "open"]) ∧
      e.requiredFields { sort := some s } = [[.name "tags"]] ∧
      ∃ leaf, e.LeafAround (s.map SortKey.field) leaf ∧ leaf.path = [.name "tags"] := by
  intro m lead e q s rows
  have he : e.Distinct := by
    simp [e, lead, Distinct, Fields.Distinct, Fields.keys, Field.MembersDistinct,
      Field.DistinctNames]
  have hquery : m.nativeQuery e q = .ok [("rows", .document [("$elemMatch",
      .document [("lead.name", .string "Ann")])])] := by
    simp only [Mapper.nativeQuery, q, Mapper.queryIn]
    rfl
  have hrows : e.requiredFields { query := some q } = [rows ++ [.name "lead", .name "age"],
      rows ++ [.name "lead", .name "name"], rows ++ [.name "open"]] := by
    decide
  have htags : e.requiredFields { sort := some s } = [[.name "tags"]] := by decide
  obtain ⟨hqueries, hsorts⟩ := requiredFields_iff_leafAround m he
  refine ⟨he, ⟨_, hquery⟩, rfl, hrows, ((hqueries q _ hquery).2 _).1 ?_, htags,
    (hsorts s ?_ _).1 ?_⟩
  · rw [hrows]
    exact List.mem_cons_of_mem _ (List.mem_cons_of_mem _ List.mem_cons_self)
  · intro key hkey
    obtain rfl := List.mem_singleton.1 hkey
    exact ⟨_, rfl⟩
  · rw [htags]
    exact List.mem_cons_self

end Entity

end Docstore
