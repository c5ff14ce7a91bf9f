import Docstore.Proofs.Entity.Ancestors
import Docstore.Proofs.Entity.FieldKeys
import Docstore.Proofs.Path.Order
import Mathlib.Data.List.Nodup

/-!
# Inclusion projections

A store is told the required fields by keys, in which the steps into arrays are left out. No field
gets lost that way, and no field is asked for together with a part of it.

* `Path.memberNames` : the names of a path;
* `Cursor.eq_of_memberNames_prefix` : no leaf has the names of another one, nor further names
  behind them;
* `Entity.dottedNames_key` : the key of a leaf has its names;
* `Entity.nativeProjection_conflictFree` : a projection has one entry for each required field, and
  no key is another one or a beginning of it.

A node has members or an element, not both, so the names lead down the tree on one way only. They
end at a leaf, below which no other leaf can be.
-/

namespace Docstore

/-! ### Names of paths -/

/-- The name of a segment. -/
def Segment.name? : Segment → Option String
  | .name key => some key
  | _ => none

namespace Path

variable {p : Path} {key : String}

/-- The names of a path, without its steps into arrays. -/
def memberNames (p : Path) : List String := p.filterMap Segment.name?

theorem mem_memberNames : key ∈ p.memberNames ↔ .name key ∈ p := by
  rw [memberNames, List.mem_filterMap]
  constructor
  · rintro ⟨s, hs, hkey⟩
    cases s with
    | name other =>
      obtain rfl := Option.some.inj hkey
      exact hs
    | _ => cases hkey
  · exact fun h => ⟨_, h, rfl⟩

/-- What is left of a path without wildcards are its names, unless it has indices. -/
theorem storageText_eq (hp : p.labels = p) :
    p.storageText = (ofNames p.memberNames).storageText := by
  have hfilter : p.filter (fun s => !s.isAny) = ofNames p.memberNames := by
    induction p with
    | nil => rfl
    | cons s rest ih =>
      obtain ⟨hs, hrest⟩ := List.cons.inj hp
      cases s with
      | name key => exact congrArg (.name key :: ·) (ih hrest)
      | index i => cases hs
      | any => exact ih hrest
  have hnames : (ofNames p.memberNames).filter (fun s => !s.isAny) = ofNames p.memberNames := by
    rw [← hfilter, List.filter_filter]
    simp
  rw [storageText, storageText, hnames, hfilter]

end Path

/-! ### Leaves in the tree -/

namespace Cursor

variable {c a b below : Cursor} {p q : Path} {s : Segment} {key : String}

/-- What has members has no element. -/
theorem element?_eq_none_of_member? (h : c.member? key = some below) : c.element? = none := by
  obtain ⟨node, trail⟩ := c
  rcases node with (_ | _ | _ | _ | _) | _ | _ <;> first | rfl | cases h

/-- Below a leaf there is no leaf. -/
theorem eq_nil_of_isLeaf (hc : c.node.isLeaf = true) (hp : c.follow? p = some a)
    (ha : a.node.isLeaf = true) : p = [] := by
  cases p with
  | nil => rfl
  | cons s rest =>
    obtain ⟨next, hstep, hrest⟩ := Option.bind_eq_some_iff.1 hp
    -- A step is possible to the elements of an array of simple values only.
    have hnext : ∃ t, next.node = .scalarElement t := by
      obtain ⟨node, trail⟩ := c
      rcases node with (_ | _ | t | _ | _) | _ | _
      case field.scalarArray =>
        cases s with
        | name key => cases hstep
        | _ =>
          obtain rfl := Option.some.inj hstep
          exact ⟨t, rfl⟩
      case field.scalar => cases s <;> cases hstep
      all_goals cases hc
    obtain ⟨t, ht⟩ := hnext
    obtain ⟨node, trail⟩ := next
    subst ht
    cases rest with
    | nil =>
      obtain rfl := Option.some.inj hrest
      cases ha
    | cons s' rest => cases s' <;> cases hrest

/-- No leaf has the names of another leaf, nor further names behind them. -/
theorem eq_of_memberNames_prefix (hp : p.labels = p) (hq : q.labels = q)
    (ha : c.follow? p = some a) (haLeaf : a.node.isLeaf = true) (hb : c.follow? q = some b)
    (hbLeaf : b.node.isLeaf = true) (h : p.memberNames <+: q.memberNames) : p = q := by
  induction p generalizing c q with
  | nil =>
    obtain rfl := Option.some.inj ha
    exact (eq_nil_of_isLeaf haLeaf hb hbLeaf).symm
  | cons s rest ih =>
    cases q with
    | nil =>
      obtain rfl := Option.some.inj hb
      exact eq_nil_of_isLeaf hbLeaf ha haLeaf
    | cons t more =>
      obtain ⟨hs, hrest⟩ := List.cons.inj hp
      obtain ⟨ht, hmore⟩ := List.cons.inj hq
      obtain ⟨x, hx, ha⟩ := Option.bind_eq_some_iff.1 ha
      obtain ⟨y, hy, hb⟩ := Option.bind_eq_some_iff.1 hb
      have hbelow : s = t → Path.memberNames rest <+: Path.memberNames more →
          s :: rest = t :: more := by
        rintro rfl hnames
        obtain rfl := Option.some.inj (hx.symm.trans hy)
        exact congrArg (s :: ·) (ih hrest hmore ha hb hnames)
      cases s with
      | index i => cases hs
      | name key =>
        cases t with
        | index i => cases ht
        | name other =>
          obtain ⟨rfl, hnames⟩ := List.cons_prefix_cons.1 h
          exact hbelow rfl hnames
        | any => cases (element?_eq_none_of_member? hx).symm.trans hy
      | any =>
        cases t with
        | index i => cases ht
        | name other => cases (element?_eq_none_of_member? hy).symm.trans hx
        | any => exact hbelow rfl h

end Cursor

/-! ### Keys of leaves -/

namespace Entity

variable {e : Entity} {p q : Path}

theorem exists_of_mem_leaves (he : e.Distinct) (h : p ∈ e.leaves) :
    ∃ leaf, e.resolve? p = some leaf ∧ leaf.node.isLeaf = true ∧ p.labels = p := by
  obtain ⟨leaf, hmem, rfl⟩ := List.mem_map.1 h
  obtain ⟨hfields, hleaf⟩ := List.mem_filter.1 hmem
  have hresolve := resolve?_path_of_mem_fields he hfields
  have hlabels : leaf.path = leaf.path.labels := Cursor.path_of_follow? hresolve
  exact ⟨leaf, hresolve, hleaf, hlabels.symm⟩

/-- The key of a leaf has its names. -/
theorem dottedNames_key (he : e.Distinct) (hdot : e.DotFree) (h : p ∈ e.leaves) :
    Path.dottedNames p.storageText = p.memberNames := by
  obtain ⟨leaf, hresolve, hleaf, hlabels⟩ := exists_of_mem_leaves he h
  have hne : p ≠ [] := by
    rintro rfl
    obtain rfl := Option.some.inj hresolve
    cases hleaf
  obtain ⟨key, hkey⟩ := Cursor.exists_name_mem_of_follow? rfl hresolve hne
  have hfollow : (Field.object e.members).follow? p = some leaf.node.asField := by
    rw [← resolve?_asField, hresolve]
    rfl
  rw [Path.storageText_eq hlabels]
  refine Path.dottedNames_storageText (List.ne_nil_of_mem (Path.mem_memberNames.2 hkey)) ?_
  exact fun name hname => hdot.not_mem_of_name_mem hfollow (Path.mem_memberNames.1 hname)

/-- Among leaves the names of a key are not a beginning of those of another one. -/
theorem eq_of_dottedNames_prefix (he : e.Distinct) (hdot : e.DotFree) (hp : p ∈ e.leaves)
    (hq : q ∈ e.leaves)
    (h : Path.dottedNames p.storageText <+: Path.dottedNames q.storageText) : p = q := by
  rw [dottedNames_key he hdot hp, dottedNames_key he hdot hq] at h
  obtain ⟨a, ha, haLeaf, hpLabels⟩ := exists_of_mem_leaves he hp
  obtain ⟨b, hb, hbLeaf, hqLabels⟩ := exists_of_mem_leaves he hq
  exact Cursor.eq_of_memberNames_prefix hpLabels hqLabels ha haLeaf hb hbLeaf h

theorem storageText_injective (he : e.Distinct) (hdot : e.DotFree) (hp : p ∈ e.leaves)
    (hq : q ∈ e.leaves) (h : p.storageText = q.storageText) : p = q :=
  eq_of_dottedNames_prefix he hdot hp hq (h ▸ List.prefix_rfl)

/-- A projection has exactly one entry for each required field, in ascending order of the fields,
although the keys are without wildcards. No key is another one with a dot and more behind it. -/
theorem nativeProjection_conflictFree (he : e.Distinct) (hdot : e.DotFree) (d : Demand) :
    e.nativeProjection d = (e.requiredFields d).map (fun p => (Path.storageText p, .int32 1)) ∧
      Path.Sorted (e.requiredFields d) ∧ Fields.Distinct (e.nativeProjection d) ∧
      ∀ key ∈ Fields.keys (e.nativeProjection d), ∀ other ∈ Fields.keys (e.nativeProjection d),
        ∀ rest, other ≠ key ++ "." ++ rest := by
  have hleaf : ∀ p ∈ e.requiredFields d, p ∈ e.leaves := fun p hp => (mem_requiredFields.1 hp).1
  have hsorted := e.sorted_requiredFields d
  have hkeys : Fields.keys ((e.requiredFields d).map fun p => (Path.storageText p, Bson.int32 1)) =
      (e.requiredFields d).map Path.storageText := by
    rw [Fields.keys, List.map_map]
    rfl
  have hdistinct : Fields.Distinct
      ((e.requiredFields d).map fun p => (Path.storageText p, Bson.int32 1)) := by
    rw [Fields.Distinct, hkeys]
    refine List.Nodup.map_on (fun p hp q hq => ?_) hsorted.nodup
    exact storageText_injective he hdot (hleaf p hp) (hleaf q hq)
  have hentries := Fields.ofList_eq_self hdistinct
  refine ⟨hentries, hsorted, ?_, ?_⟩
  · rw [nativeProjection, hentries]
    exact hdistinct
  · rw [nativeProjection, hentries, hkeys]
    intro key hkey other hother rest heq
    obtain ⟨p, hp, rfl⟩ := List.mem_map.1 hkey
    obtain ⟨q, hq, rfl⟩ := List.mem_map.1 hother
    have hnames : Path.dottedNames q.storageText =
        Path.dottedNames p.storageText ++ Path.dottedNames rest := by
      rw [heq, Path.dottedNames_append_dot]
    obtain rfl := eq_of_dottedNames_prefix he hdot (hleaf p hp) (hleaf q hq) ⟨_, hnames.symm⟩
    -- A text is no continuation of itself.
    have hlength := congrArg String.length heq
    have hdot : String.length "." = 1 := rfl
    rw [String.length_append, String.length_append] at hlength
    omega

/-- Of the rows of a table the leads and the marks are asked for, and the table's own title. -/
theorem nativeProjection_conflictFree_rows :
    let person : Field := .object [("name", .scalar .string), ("age", .scalar .integer)]
    let e : Entity := ⟨"table", [("title", .scalar .string), ("rows", .objectArray [("open",
      .scalar .boolean), ("lead", person), ("marks", .scalarArray .integer)])]⟩
    let d : Demand := {
      projection := some (.field [.name "title"] true false),
      query := some (.contains [.name "rows", .any, .name "marks"] .any [.int 1]),
      sort := some [⟨[.name "rows", .any, .name "lead"], false⟩] }
    e.Distinct ∧ e.DotFree ∧ e.nativeProjection d = [("rows.lead.age", .int32 1),
      ("rows.lead.name", .int32 1), ("rows.marks", .int32 1), ("title", .int32 1)] ∧
      Fields.Distinct (e.nativeProjection d) := by
  intro person e d
  have he : e.Distinct := by
    simp [e, person, Entity.Distinct, Fields.Distinct, Fields.keys, Field.MembersDistinct,
      Field.DistinctNames]
  have hdot : e.DotFree := by
    simp [e, person, Entity.DotFree, Field.DotFree, Field.MembersDotFree]
  obtain ⟨-, -, hdistinct, -⟩ := nativeProjection_conflictFree he hdot d
  refine ⟨he, hdot, ?_, hdistinct⟩
  rfl

end Entity

end Docstore
