import Docstore.Projection.Required

/-!
# The order of paths

* `Segment.compare`, `Path.compare` are total orders: of two different paths exactly one comes
  first, and what comes before is passed on;
* `Path.sorted_insertSorted` : a path finds its place in an ascending list;
* `Entity.sorted_requiredFields` : required fields are listed in strictly ascending order.
-/

namespace Docstore

namespace Segment

instance : Std.OrientedCmp compare where
  eq_swap {a b} := by
    cases a <;> cases b
    case name.name a b => exact Std.OrientedOrd.eq_swap (a := a) (b := b)
    case index.index i j => exact Std.OrientedOrd.eq_swap (a := i) (b := j)
    all_goals rfl

instance : Std.TransCmp compare where
  isLE_trans {a b c} hab hbc := by
    -- Between segments of one kind the order is that of their names or indices.
    cases a <;> cases b <;> cases c <;> simp only [compare, Ordering.isLE_lt, Ordering.isLE_eq,
      Ordering.isLE_gt, Bool.false_eq_true] at hab hbc ⊢
    all_goals exact Std.TransCmp.isLE_trans hab hbc

end Segment

namespace Path

theorem compare_eq_compareLex (p q : Path) : p.compare q = List.compareLex Segment.compare p q := by
  induction p generalizing q with
  | nil => cases q <;> rfl
  | cons s p ih =>
    cases q with
    | nil => rfl
    | cons t q => rw [compare, List.compareLex_cons_cons, ih]

instance : Std.TransCmp compare := by
  have heq : compare = List.compareLex Segment.compare :=
    funext fun p => funext fun q => compare_eq_compareLex p q
  rw [heq]
  infer_instance

/-- Each path comes before those that follow it. -/
def Sorted (l : List Path) : Prop := l.Pairwise fun p q => p.compare q = .lt

/-- A path finds its place in an ascending list. -/
theorem sorted_insertSorted {p : Path} {l : List Path} (h : Sorted l) :
    Sorted (insertSorted p l) := by
  induction l with
  | nil => exact List.pairwise_singleton _ _
  | cons q rest ih =>
    obtain ⟨hfirst, hrest⟩ := List.pairwise_cons.1 h
    rw [insertSorted]
    split
    case h_1 hlt =>
      refine List.pairwise_cons.2 ⟨List.forall_mem_cons.2 ⟨hlt, fun x hx => ?_⟩, h⟩
      exact Std.TransCmp.lt_trans hlt (hfirst x hx)
    case h_2 => exact h
    case h_3 hgt =>
      refine List.pairwise_cons.2 ⟨fun x hx => ?_, ih hrest⟩
      rcases mem_insertSorted.1 hx with rfl | hx
      · exact Std.OrientedCmp.gt_iff_lt.1 hgt
      · exact hfirst x hx

/-- In an ascending list no path is listed twice. -/
theorem Sorted.nodup {l : List Path} (h : Sorted l) : l.Nodup := by
  refine List.Pairwise.imp (fun {p q} hlt heq => ?_) h
  rw [compare_eq_iff.2 heq] at hlt
  cases hlt

end Path

/-- Required fields are listed in strictly ascending order. -/
theorem Entity.sorted_requiredFields (e : Entity) (d : Demand) :
    Path.Sorted (e.requiredFields d) := by
  rw [requiredFields]
  induction e.leaves.filter d.requires with
  | nil => exact List.Pairwise.nil
  | cons p rest ih => exact Path.sorted_insertSorted ih

end Docstore
