import Docstore.Path.Basic
import Mathlib.Data.List.Forall2

/-!
# Overlapping paths

Paths overlap by a comparison of their segments, as far as both of them go. What this means is told
by positions, the paths without wildcards: two paths overlap exactly when some position is covered
by both.

* `Segment.overlaps_iff` : segments overlap when they match a common name or index;
* `Path.covers_iff_forall₂` : to cover a position is to match a beginning of it, segment by segment;
* `Path.overlaps_comm`, `Path.overlaps_self_append`, `Path.overlaps_of_overlaps_append` : overlap is
  symmetric, a path overlaps all that stands below it, and what overlaps a longer path overlaps the
  shorter one;
* `Path.overlaps_iff_shared_position` : overlap as a shared position.

Matching is not transitive, since a wildcard matches two different indices. The shared position is
therefore put together from a common match of each two segments.
-/

namespace Docstore

namespace Segment

theorem overlaps_self (s : Segment) : s.overlaps s = true := by
  cases s <;> simp [overlaps]

theorem overlaps_comm (s t : Segment) : s.overlaps t = t.overlaps s := by
  cases s <;> cases t <;> simp [overlaps, Bool.beq_comm]

/-- Segments overlap when they match a common name or index. -/
theorem overlaps_iff {s t : Segment} :
    s.overlaps t = true ↔ ∃ u, u ≠ .any ∧ s.overlaps u = true ∧ t.overlaps u = true := by
  constructor
  · intro h
    cases s with
    | name key => exact ⟨.name key, nofun, overlaps_self _, overlaps_comm t _ ▸ h⟩
    | index i => exact ⟨.index i, nofun, overlaps_self _, overlaps_comm t _ ▸ h⟩
    | any =>
      cases t with
      | name key => cases h
      | index i => exact ⟨.index i, nofun, rfl, overlaps_self _⟩
      | any => exact ⟨.index 0, nofun, rfl, rfl⟩
  · rintro ⟨u, hu, hs, ht⟩
    cases u with
    | any => exact absurd rfl hu
    | _ => cases s <;> cases t <;> simp_all [overlaps]

end Segment

namespace Path

variable {p q c rest : Path}

/-! ### Laws of overlap -/

theorem overlaps_append_left (p q rest : Path) :
    (p ++ q).overlaps (p ++ rest) = q.overlaps rest := by
  induction p with
  | nil => rfl
  | cons s p ih =>
    rw [List.cons_append, List.cons_append, overlaps, Segment.overlaps_self, ih]
    rfl

/-- A path overlaps all that stands below it. -/
theorem overlaps_self_append (p rest : Path) : p.overlaps (p ++ rest) = true := by
  have h := overlaps_append_left p [] rest
  rw [List.append_nil] at h
  exact h

theorem overlaps_comm (p q : Path) : p.overlaps q = q.overlaps p := by
  induction p generalizing q with
  | nil => cases q <;> rfl
  | cons s p ih =>
    cases q with
    | nil => rfl
    | cons t q => rw [overlaps, overlaps, Segment.overlaps_comm, ih]

/-- What overlaps a longer path overlaps the shorter one. -/
theorem overlaps_of_overlaps_append (h : p.overlaps (q ++ rest) = true) : p.overlaps q = true := by
  induction p generalizing q with
  | nil => rw [overlaps.eq_def]
  | cons s p ih =>
    cases q with
    | nil => rfl
    | cons t q =>
      simp only [List.cons_append, overlaps, Bool.and_eq_true] at h ⊢
      exact ⟨h.1, ih h.2⟩

/-! ### Positions -/

theorem isConcrete_cons_iff {s : Segment} : IsConcrete (s :: c) ↔ s ≠ .any ∧ IsConcrete c := by
  rw [IsConcrete, List.mem_cons, not_or, ne_comm]
  rfl

theorem nil_covers (c : Path) : Covers [] c := by
  rw [Covers.eq_def]
  trivial

/-- A segment of a position is covered by one that matches it. -/
theorem covers_cons_iff {s t : Segment} (ht : t ≠ .any) :
    Covers (s :: p) (t :: c) ↔ s.overlaps t = true ∧ Covers p c := by
  cases t with
  | any => exact absurd rfl ht
  | _ => cases s <;> simp [Covers, Segment.overlaps]

/-- To cover a position is to match a beginning of it, segment by segment. -/
theorem covers_iff_forall₂ (hc : IsConcrete c) :
    p.Covers c ↔ ∃ start, start <+: c ∧ List.Forall₂ (fun s t => s.overlaps t = true) p start := by
  induction p generalizing c with
  | nil => exact iff_of_true (nil_covers c) ⟨[], List.nil_prefix, .nil⟩
  | cons s p ih =>
    cases c with
    | nil =>
      refine iff_of_false (by simp [Covers]) ?_
      rintro ⟨start, hstart, hmatch⟩
      obtain rfl := List.prefix_nil.1 hstart
      cases hmatch
    | cons t c =>
      obtain ⟨ht, hrest⟩ := isConcrete_cons_iff.1 hc
      rw [covers_cons_iff ht, ih hrest]
      constructor
      · rintro ⟨hst, start, hstart, hmatch⟩
        exact ⟨t :: start, List.cons_prefix_cons.2 ⟨rfl, hstart⟩, .cons hst hmatch⟩
      · rintro ⟨_, hstart, hmatch⟩
        cases hmatch with
        | cons hst hmatch =>
          obtain ⟨rfl, hmore⟩ := List.cons_prefix_cons.1 hstart
          exact ⟨hst, _, hmore, hmatch⟩

/-- Every path covers a position. -/
theorem exists_covers (p : Path) : ∃ c, IsConcrete c ∧ p.Covers c := by
  induction p with
  | nil => exact ⟨[], List.not_mem_nil, trivial⟩
  | cons s p ih =>
    obtain ⟨c, hc, hcovers⟩ := ih
    obtain ⟨t, ht, hst, -⟩ := Segment.overlaps_iff.1 s.overlaps_self
    exact ⟨t :: c, isConcrete_cons_iff.2 ⟨ht, hc⟩, (covers_cons_iff ht).2 ⟨hst, hcovers⟩⟩

/-- Paths that overlap share a position. It goes as far as the longer one. -/
theorem exists_shared_of_overlaps (h : p.overlaps q = true) :
    ∃ c, IsConcrete c ∧ p.Covers c ∧ q.Covers c := by
  induction p generalizing q with
  | nil =>
    obtain ⟨c, hc, hq⟩ := exists_covers q
    exact ⟨c, hc, nil_covers c, hq⟩
  | cons s p ih =>
    cases q with
    | nil =>
      obtain ⟨c, hc, hp⟩ := exists_covers (s :: p)
      exact ⟨c, hc, hp, nil_covers c⟩
    | cons t q =>
      obtain ⟨hst, hrest⟩ := Bool.and_eq_true_iff.1 h
      obtain ⟨u, hu, hsu, htu⟩ := Segment.overlaps_iff.1 hst
      obtain ⟨c, hc, hp, hq⟩ := ih hrest
      exact ⟨u :: c, isConcrete_cons_iff.2 ⟨hu, hc⟩, (covers_cons_iff hu).2 ⟨hsu, hp⟩,
        (covers_cons_iff hu).2 ⟨htu, hq⟩⟩

/-- Paths that share a position overlap. -/
theorem overlaps_of_covers (hc : IsConcrete c) (hp : p.Covers c) (hq : q.Covers c) :
    p.overlaps q = true := by
  induction c generalizing p q with
  | nil =>
    cases p with
    | nil => rw [overlaps.eq_def]
    | cons s p => cases hp
  | cons u c ih =>
    obtain ⟨hu, hrest⟩ := isConcrete_cons_iff.1 hc
    cases p with
    | nil => rw [overlaps.eq_def]
    | cons s p =>
      cases q with
      | nil => rfl
      | cons t q =>
        obtain ⟨hsu, hp⟩ := (covers_cons_iff hu).1 hp
        obtain ⟨htu, hq⟩ := (covers_cons_iff hu).1 hq
        exact Bool.and_eq_true_iff.2 ⟨Segment.overlaps_iff.2 ⟨u, hu, hsu, htu⟩, ih hrest hp hq⟩

/-- Two paths overlap exactly when some position is covered by both, which means that each of them
matches a beginning of it, segment by segment. So overlap is reflexive and symmetric, and a longer
path overlaps no more than a shorter one. -/
theorem overlaps_iff_shared_position (p q : Path) :
    (p.overlaps q = true ↔ ∃ c, IsConcrete c ∧ p.Covers c ∧ q.Covers c) ∧
    (∀ c, IsConcrete c → (p.Covers c ↔
      ∃ start, start <+: c ∧ List.Forall₂ (fun s t => s.overlaps t = true) p start)) ∧
    p.overlaps p = true ∧ p.overlaps q = q.overlaps p ∧
    ∀ rest, ((p.join rest).overlaps q = true → p.overlaps q = true) ∧
      (p.overlaps (q.join rest) = true → p.overlaps q = true) := by
  have hshared : p.overlaps q = true ↔ ∃ c, IsConcrete c ∧ p.Covers c ∧ q.Covers c :=
    ⟨exists_shared_of_overlaps, fun ⟨_, hc, hp, hq⟩ => overlaps_of_covers hc hp hq⟩
  have hself : p.overlaps p = true := by simpa using overlaps_self_append p []
  refine ⟨hshared, fun c hc => covers_iff_forall₂ hc, hself, overlaps_comm p q,
    fun rest => ⟨?_, ?_⟩⟩
  · rw [overlaps_comm _ q, overlaps_comm _ q]
    exact overlaps_of_overlaps_append
  · exact overlaps_of_overlaps_append

/-- Any row and the third row share the third row, and any seat in any row still meets it. -/
theorem overlaps_iff_shared_position_rows :
    let p : Path := [.name "rows", .any]
    let q : Path := [.name "rows", .index 2]
    let rest : Path := [.name "seats", .any]
    let c : Path := [.name "rows", .index 2, .name "seats"]
    IsConcrete c ∧ p.Covers c ∧ q.Covers c ∧ (p.join rest).overlaps q = true ∧
      p.overlaps q = true ∧
      ∃ start, start <+: c ∧ List.Forall₂ (fun s t => s.overlaps t = true) p start := by
  intro p q rest c
  have hc : IsConcrete c := by simp [c, IsConcrete]
  have hp : p.Covers c := by simp [p, c, Covers]
  have hq : q.Covers c := by simp [q, c, Covers]
  have hlong : (p.join rest).overlaps q = true := by decide
  obtain ⟨-, hcovers, -, -, hshorter⟩ := overlaps_iff_shared_position p q
  exact ⟨hc, hp, hq, hlong, (hshorter rest).1 hlong, (hcovers c hc).1 hp⟩

end Path

end Docstore
