import Docstore.Proofs.Entity.Names

/-!
# Ancestors and paths

What stands above a node is told by the paths that lead to nodes.

* `Cursor.mem_ancestors_iff_of_follow?` : above the node that a path leads to are the nodes that
  its beginnings lead to;
* `Entity.mem_ancestors_iff` : one node is above another when its path is a beginning of the
  other's;
* `Entity.resolve?_path_of_mem_fields` : where no scope declares a name twice, the path of a listed
  node leads to it.

Indices and wildcards lead to the same node, so paths are compared by their labels.
-/

namespace Docstore

/-! ### Beginnings of paths -/

namespace Cursor

variable {a c c' : Cursor} {p q : Path}

theorem step?_stepLabel (c : Cursor) (s : Segment) : c.step? (stepLabel s) = c.step? s := by
  cases s <;> rfl

/-- A path leads where its labels lead. -/
theorem follow?_labels (c : Cursor) (p : Path) : c.follow? p.labels = c.follow? p := by
  induction p generalizing c with
  | nil => rfl
  | cons s rest ih =>
    rw [Path.labels, List.map_cons, follow?, follow?, step?_stepLabel]
    exact congrArg _ (funext ih)

/-- Above the node that a path leads to are the nodes that its beginnings lead to, and what stands
above its start. -/
theorem mem_ancestors_iff_of_follow? (h : c.follow? p = some c') :
    a ∈ c'.ancestors ↔ a ∈ c.ancestors ∨ ∃ q, q <+: p ∧ c.follow? q = some a := by
  induction p generalizing c with
  | nil =>
    obtain rfl := Option.some.inj h
    refine ⟨.inl, fun ha => ha.elim id fun ⟨q, hq, ha⟩ => ?_⟩
    obtain rfl := List.prefix_nil.1 hq
    obtain rfl := Option.some.inj ha
    exact List.mem_cons_self
  | cons s rest ih =>
    obtain ⟨next, hstep, h⟩ := Option.bind_eq_some_iff.1 h
    have hfollow : ∀ q, c.follow? (s :: q) = next.follow? q := fun q => by
      rw [follow?, hstep]
      rfl
    -- The first step has one ancestor more than the start: itself, where one segment leads.
    rw [ih h, ancestors_of_step? hstep]
    constructor
    · rintro (ha | ⟨q, hq, ha⟩)
      · rcases List.mem_cons.1 ha with rfl | ha
        · exact .inr ⟨[s], List.cons_prefix_cons.2 ⟨rfl, List.nil_prefix⟩, hfollow []⟩
        · exact .inl ha
      · exact .inr ⟨s :: q, List.cons_prefix_cons.2 ⟨rfl, hq⟩, (hfollow q).trans ha⟩
    · rintro (ha | ⟨q, hq, ha⟩)
      · exact .inl (List.mem_cons_of_mem _ ha)
      · cases q with
        | nil =>
          obtain rfl := Option.some.inj ha
          exact .inl (List.mem_cons_of_mem _ List.mem_cons_self)
        | cons t q =>
          obtain ⟨rfl, hrest⟩ := List.cons_prefix_cons.1 hq
          exact .inr ⟨q, hrest, (hfollow q).symm.trans ha⟩

end Cursor

namespace Entity

variable {e : Entity} {a c : Cursor} {p q : Path}

/-- A node is above another one exactly when its path is a beginning of the other's, wildcards
standing for indices. -/
theorem mem_ancestors_iff (ha : e.resolve? q = some a) (hc : e.resolve? p = some c) :
    a ∈ c.ancestors ↔ q.labels <+: p.labels := by
  have hlabels : e.root.follow? p.labels = some c := (Cursor.follow?_labels _ p).trans hc
  rw [Cursor.mem_ancestors_iff_of_follow? hlabels]
  constructor
  · rintro (hroot | ⟨q', hprefix, hq'⟩)
    · obtain rfl := List.mem_singleton.1 hroot
      have hpath : [] = q.labels := Cursor.path_of_follow? ha
      rw [← hpath]
      exact List.nil_prefix
    · have hpath : Path.labels q' = q.labels :=
        (Cursor.path_of_follow? hq').symm.trans (Cursor.path_of_follow? ha)
      have hbeginning : Path.labels q' <+: p.labels.labels := hprefix.map Cursor.stepLabel
      rwa [hpath, Path.labels_labels] at hbeginning
  · intro hprefix
    exact .inr ⟨q.labels, hprefix, (Cursor.follow?_labels _ q).trans ha⟩

end Entity

/-! ### Listed nodes -/

namespace Cursor

variable {c : Cursor}

theorem mem_keys_of_findMember? {parent : Node} {trail : List Step} {key : String} {i : Nat}
    {members : Members} (h : findMember? parent trail key i members = some c) :
    key ∈ members.keys := by
  rw [← Fields.contains_iff, Fields.contains, ← findMember?_asField parent trail key i members, h]
  rfl

mutual

/-- A path leads to every listed node below a field without repeated names. -/
theorem exists_follow?_of_mem_descendants : ∀ {f : Field} {trail : List Step},
    f.DistinctNames → c ∈ f.descendants trail → ∃ p, follow? ⟨.field f, trail⟩ p = some c
  | .scalar _, _, _, hmem => by cases hmem
  | .reference _, _, _, hmem => by cases hmem
  | .object members, trail, hd, hmem => by
    obtain ⟨key, first, p, hfirst, hp⟩ := exists_findMember?_of_mem_descendants hd.1 hd.2 hmem
    exact ⟨.name key :: p, Option.bind_eq_some_iff.2 ⟨first, hfirst, hp⟩⟩
  | .scalarArray t, trail, _, hmem => by
    obtain rfl := List.mem_singleton.1 hmem
    exact ⟨[.any], rfl⟩
  | .objectArray members, trail, hd, hmem => by
    rcases List.mem_cons.1 hmem with rfl | hmem
    · exact ⟨[.any], rfl⟩
    · obtain ⟨key, first, p, hfirst, hp⟩ := exists_findMember?_of_mem_descendants hd.1 hd.2 hmem
      exact ⟨.any :: .name key :: p, Option.bind_eq_some_iff.2 ⟨_, rfl,
        Option.bind_eq_some_iff.2 ⟨first, hfirst, hp⟩⟩⟩

/-- A name and a path from its member lead to every listed node below members without repeated
names. -/
theorem exists_findMember?_of_mem_descendants : ∀ {members : List (String × Field)} {parent : Node}
    {trail : List Step} {i : Nat}, Fields.Distinct members → Field.MembersDistinct members →
      c ∈ Members.descendants parent trail i members →
        ∃ key first p, findMember? parent trail key i members = some first ∧
          first.follow? p = some c
  | [], _, _, _, _, _, hmem => by cases hmem
  | (name, f) :: rest, parent, trail, i, hkeys, hd, hmem => by
    obtain ⟨hfresh, hrest⟩ := List.nodup_cons.1 hkeys
    rcases List.mem_cons.1 hmem with rfl | hmem
    · exact ⟨name, _, [], if_pos rfl, rfl⟩
    · rcases List.mem_append.1 hmem with hmem | hmem
      · obtain ⟨p, hp⟩ := exists_follow?_of_mem_descendants hd.1 hmem
        exact ⟨name, _, p, if_pos rfl, hp⟩
      · obtain ⟨key, first, p, hfirst, hp⟩ :=
          exists_findMember?_of_mem_descendants hrest hd.2 hmem
        -- The look-up passes the first member because its name does not come again.
        have hne : name ≠ key := fun heq => hfresh (heq ▸ mem_keys_of_findMember? hfirst)
        exact ⟨key, first, p, (if_neg hne).trans hfirst, hp⟩

end

end Cursor

namespace Entity

variable {e : Entity} {c : Cursor}

/-- Where no scope declares a name twice, the path of a listed node leads to it. -/
theorem resolve?_path_of_mem_fields (he : e.Distinct) (h : c ∈ e.fields) :
    e.resolve? c.path = some c := by
  have hd : (Field.object e.members).DistinctNames := he
  obtain ⟨p, hp⟩ := Cursor.exists_follow?_of_mem_descendants hd h
  have hpath : c.path = p.labels := Cursor.path_of_follow? hp
  rw [hpath]
  exact (Cursor.follow?_labels e.root p).trans hp

end Entity

end Docstore
