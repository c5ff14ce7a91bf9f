import Docstore.Proofs.Number.WholeDouble
import Docstore.Script.Compare

/-!
# Laws of the loose comparison

Equality and the other comparisons look at two different orders, which disagree about null. The laws
of the comparison are laws of the six operators about one order, and laws of the two orders.

* `Comparison.allows` : what a comparison says of values in a given order;
* `Json.looseOrder?_swap`, `Json.relationalOrder?_swap` : the orders of swapped values;
* `Comparison.holds_flip` : a comparison holds exactly when the turned one does of the swapped
  operands;
* `Comparison.eq_holds_int` : integers of at most 53 bits are equal exactly when they are;
* `Comparison.holds_coherent` : how the operators agree with each other, and what equals itself.
-/

namespace Docstore

/-- A comparison of two values by their order. Values without an order are different, and no other
comparison holds of them. -/
def Comparison.allows (op : Comparison) (order : Option Ordering) : Bool :=
  match op with
  | .eq => order == some .eq
  | .neq => order != some .eq
  | .lt => order == some .lt
  | .gt => order == some .gt
  | .lte => order == some .lt || order == some .eq
  | .gte => order == some .gt || order == some .eq

/-! ### The two orders -/

namespace Json

theorem numberOrder?_swap (a b : Option Double) :
    (numberOrder? a b).map Ordering.swap = numberOrder? b a := by
  cases a <;> cases b <;> simp [numberOrder?, Double.compare?_swap]

theorem looseOrder?_swap (a b : Json) :
    (a.looseOrder? b).map Ordering.swap = b.looseOrder? a := by
  cases a <;> cases b <;> simp [looseOrder?, numberOrder?_swap, ← Std.OrientedOrd.eq_swap]

theorem relationalOrder?_swap (a b : Json) :
    (a.relationalOrder? b).map Ordering.swap = b.relationalOrder? a := by
  cases a <;> cases b <;> simp [relationalOrder?, numberOrder?_swap, ← Std.OrientedOrd.eq_swap]

/-- Only null has another place in the order than equality tells. -/
theorem relationalOrder?_eq_looseOrder? {l r : Json} (hl : l ≠ .null) (hr : r ≠ .null) :
    l.relationalOrder? r = l.looseOrder? r := by
  cases l <;> cases r <;> simp [relationalOrder?, looseOrder?, relationalNumber?] at hl hr ⊢

/-- Among the values only arrays and objects are not equal to themselves: no number of a document is
not-a-number, and a text is compared as a text. -/
theorem looseOrder?_self_iff (a : Json) :
    a.looseOrder? a = some .eq ↔ (∀ items, a ≠ .array items) ∧ ∀ members, a ≠ .object members := by
  cases a with
  | null => exact iff_of_true rfl ⟨nofun, nofun⟩
  | bool b =>
    have hnumber : (if b then Double.finite .one else .zero false).isNan = false := by
      cases b <;> rfl
    exact iff_of_true (Double.compare?_self hnumber) ⟨nofun, nofun⟩
  | int n => exact iff_of_true (Double.compare?_self (Double.isNan_ofInt n)) ⟨nofun, nofun⟩
  | double x =>
    have hnumber : (Double.finite x).isNan = false := rfl
    exact iff_of_true (Double.compare?_self hnumber) ⟨nofun, nofun⟩
  | string s => exact iff_of_true (by simp [looseOrder?]) ⟨nofun, nofun⟩
  | array items => exact iff_of_false nofun fun h => h.1 items rfl
  | object members => exact iff_of_false nofun fun h => h.2 members rfl

theorem looseOrder?_null_iff (a : Json) : Json.null.looseOrder? a = some .eq ↔ a = .null := by
  cases a <;> simp [looseOrder?]

/-- In the order null has the place of zero. -/
theorem relationalOrder?_null (a : Json) :
    Json.null.relationalOrder? a = (Json.int 0).relationalOrder? a := by
  have hzero : Json.null.relationalNumber? = (Json.int 0).relationalNumber? := by decide
  cases a <;> simp only [relationalOrder?, hzero]

end Json

/-! ### The operators -/

namespace Comparison

theorem isEquality_flip (op : Comparison) : op.flip.isEquality = op.isEquality := by
  cases op <;> rfl

/-- A comparison goes by the order that its operator looks at. -/
theorem holds_eq (op : Comparison) (l r : Json) :
    op.holds l r =
      op.allows (if op.isEquality then l.looseOrder? r else l.relationalOrder? r) := by
  cases op <;> rfl

theorem holds_eq_allows {l r : Json} (op : Comparison) (hl : l ≠ .null) (hr : r ≠ .null) :
    op.holds l r = op.allows (l.looseOrder? r) := by
  rw [holds_eq, Json.relationalOrder?_eq_looseOrder? hl hr, ite_self]

theorem allows_swap (op : Comparison) (order : Option Ordering) :
    op.flip.allows (order.map Ordering.swap) = op.allows order := by
  cases op <;> rcases order with _ | (_ | _ | _) <;> rfl

/-- Turning a comparison round and swapping its operands changes nothing. -/
theorem holds_flip (op : Comparison) (l r : Json) : op.flip.holds r l = op.holds l r := by
  rw [holds_eq, holds_eq, isEquality_flip, ← Json.looseOrder?_swap l r,
    ← Json.relationalOrder?_swap l r, ← apply_ite (Option.map Ordering.swap), allows_swap]

/-- Null is compared like the number zero, but for equality. -/
theorem holds_null {op : Comparison} (hop : op.isEquality = false) (a : Json) :
    op.holds .null a = op.holds (.int 0) a := by
  rw [holds_eq, holds_eq, hop, Json.relationalOrder?_null]
  rfl

/-- Integers that doubles hold exactly are equal in the comparison when they are. -/
theorem eq_holds_int {n m : Int} (hn : Double.HoldsInt n) (hm : Double.HoldsInt m) :
    Comparison.eq.holds (.int n) (.int m) = decide (n = m) := by
  have horder : (Json.int n).looseOrder? (.int m) = some (compare n m) :=
    Double.compare?_ofInt hn hm
  rw [holds, horder]
  by_cases h : n = m
  · simp [h]
  · have hne : compare n m ≠ .eq := fun e => h (Std.LawfulEqOrd.eq_of_compare e)
    simp [h, hne]

/-- No two hold of less, of greater, and of at most together with at least. -/
theorem count_allows_le_one (order : Option Ordering) :
    [Comparison.lt.allows order, Comparison.gt.allows order,
      Comparison.lte.allows order && Comparison.gte.allows order].count true ≤ 1 := by
  rcases order with _ | (_ | _ | _) <;> decide

theorem lte_allows_eq (order : Option Ordering) :
    Comparison.lte.allows order = (Comparison.lt.allows order ||
      Comparison.lte.allows order && Comparison.gte.allows order) := by
  rcases order with _ | (_ | _ | _) <;> rfl

/-- The operators agree with each other on all values. A comparison can be turned round, and
different is not equal. No two hold of less, of greater, and of at most together with at least; and
at most is less or both of these. All values but arrays and objects equal themselves. Null equals
null alone, and in the order it has the place of the number zero. -/
theorem holds_coherent (op : Comparison) (a b : Json) :
    op.holds a b = op.flip.holds b a ∧
    Comparison.neq.holds a b = !Comparison.eq.holds a b ∧
    [Comparison.lt.holds a b, Comparison.gt.holds a b,
      Comparison.lte.holds a b && Comparison.gte.holds a b].count true ≤ 1 ∧
    Comparison.lte.holds a b =
      (Comparison.lt.holds a b || Comparison.lte.holds a b && Comparison.gte.holds a b) ∧
    (Comparison.eq.holds a a = true ↔
      (∀ items, a ≠ .array items) ∧ ∀ members, a ≠ .object members) ∧
    (Comparison.eq.holds .null a = true ↔ a = .null) ∧
    (op.isEquality = false → op.holds .null a = op.holds (.int 0) a ∧
      op.holds a .null = op.holds a (.int 0)) := by
  refine ⟨(op.holds_flip a b).symm, rfl, count_allows_le_one _, lte_allows_eq _, ?_, ?_,
    fun hop => ?_⟩
  · rw [← Json.looseOrder?_self_iff a]
    exact beq_iff_eq
  · rw [← Json.looseOrder?_null_iff a]
    exact beq_iff_eq
  · refine ⟨holds_null hop a, ?_⟩
    rw [← op.holds_flip, ← op.holds_flip]
    exact holds_null (op.isEquality_flip.trans hop) a

/-- Null does not equal a text that reads as minus zero, but has its place in the order. -/
theorem holds_coherent_null :
    let op : Comparison := .lte
    let a : Json := .string " -0.0 "
    op.isEquality = false ∧ Comparison.eq.holds .null a = false ∧
      op.holds (.int 0) a = true ∧ op.holds .null a = true ∧ op.holds a .null = true := by
  intro op a
  have hop : op.isEquality = false := rfl
  obtain ⟨-, -, -, -, -, hequal, hplace⟩ := holds_coherent op a .null
  obtain ⟨hleft, hright⟩ := hplace hop
  have hne : a ≠ .null := nofun
  have hzero : op.holds (.int 0) a = true := by decide
  have hzero' : op.holds a (.int 0) = true := by decide
  exact ⟨hop, Bool.eq_false_iff.2 fun h => hne (hequal.1 h), hzero, hleft.trans hzero,
    hright.trans hzero'⟩

end Comparison

end Docstore
