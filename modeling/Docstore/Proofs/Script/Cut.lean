import Docstore.Proofs.Path.Overlap
import Docstore.Proofs.Script.Watching

/-!
# Scripts on cut documents

A document can be cut to the positions that overlap given paths. A script notices nothing of it as
long as the paths overlap everything that it looks at.

* `Json.cut` : the document without the members and elements that overlap none of the paths;
* `Path.Keeps` : the paths overlap a position, whatever its indices are;
* `Json.sameAlong_cut` : the cut document is like the whole one along every kept path;
* `Stmt.runBlock_cut` : statements that look at nothing else run on the cut document as they do on
  the whole one.
-/

namespace Docstore

/-! ### Kept positions -/

namespace Path

/-- The position overlaps one of the paths. -/
def overlapsSome (paths : List Path) (position : Path) : Bool :=
  paths.any fun p => p.overlaps position

/-- One of the paths has no index and overlaps a position with these labels. -/
def Keeps (paths : List Path) (position : Path) : Prop :=
  ∃ p ∈ paths, p.labels = p ∧ p.overlaps position = true

variable {paths : List Path} {p q rest : Path}

/-- What lies above a kept position is kept. -/
theorem Keeps.of_append (h : Keeps paths (q ++ rest)) : Keeps paths q := by
  obtain ⟨p, hmem, hp, hoverlaps⟩ := h
  exact ⟨p, hmem, hp, overlaps_of_overlaps_append hoverlaps⟩

theorem overlaps_stepLabel {s : Segment} (hs : Cursor.stepLabel s = s) (t : Segment) :
    s.overlaps (Cursor.stepLabel t) = s.overlaps t := by
  cases s with
  | index i => cases hs
  | name key => cases t <;> rfl
  | any => cases t <;> rfl

/-- To overlap a path without indices is to overlap its labels. -/
theorem overlaps_labels (hp : p.labels = p) (q : Path) : p.overlaps q.labels = p.overlaps q := by
  induction p generalizing q with
  | nil => rw [overlaps.eq_def, overlaps.eq_def]
  | cons s p ih =>
    cases q with
    | nil => rfl
    | cons t q =>
      obtain ⟨hs, hp⟩ := List.cons.inj hp
      have hrest : overlaps p (q.map Cursor.stepLabel) = overlaps p q := ih hp q
      simp only [labels, List.map_cons, overlaps, overlaps_stepLabel hs t, hrest]

theorem Keeps.labels (h : Keeps paths q) : Keeps paths q.labels := by
  obtain ⟨p, hmem, hp, hoverlaps⟩ := h
  exact ⟨p, hmem, hp, (overlaps_labels hp q).trans hoverlaps⟩

/-- Every position with kept labels is kept. -/
theorem Keeps.overlapsSome (h : Keeps paths q.labels) : overlapsSome paths q = true := by
  obtain ⟨p, hmem, hp, hoverlaps⟩ := h
  exact List.any_eq_true.2 ⟨p, hmem, (overlaps_labels hp q).symm.trans hoverlaps⟩

end Path

/-! ### Cut documents -/

namespace Json

mutual

/-- The value at a position without the members and elements below it that overlap none of the
paths. -/
def cutAt (paths : List Path) (here : Path) : Json → Json
  | .array items => .array (cutItems paths here 0 items)
  | .object members => .object (cutMembers paths here members)
  | value => value

/-- The elements from index `i` on that overlap some path, cut themselves. -/
def cutItems (paths : List Path) (here : Path) : (i : Nat) → List Json → List Json
  | _, [] => []
  | i, item :: rest =>
    let position := here.child (.index i)
    if Path.overlapsSome paths position then
      cutAt paths position item :: cutItems paths here (i + 1) rest
    else cutItems paths here (i + 1) rest

/-- The members that overlap some path, cut themselves. -/
def cutMembers (paths : List Path) (here : Path) : List (String × Json) → List (String × Json)
  | [] => []
  | (name, value) :: rest =>
    let position := here.child (.name name)
    if Path.overlapsSome paths position then
      (name, cutAt paths position value) :: cutMembers paths here rest
    else cutMembers paths here rest

end

/-- The document without the members and elements whose positions overlap none of the paths. -/
def cut (paths : List Path) (d : Json) : Json := d.cutAt paths .root

variable {paths : List Path} {here : Path} {name : String}

theorem get?_cutMembers (h : Path.overlapsSome paths (here.child (.name name)) = true)
    (members : List (String × Json)) :
    Fields.get? name (cutMembers paths here members) =
      (Fields.get? name members).map (cutAt paths (here.child (.name name))) := by
  induction members with
  | nil => rfl
  | cons member rest ih =>
    obtain ⟨key, value⟩ := member
    rw [cutMembers]
    by_cases hkey : key = name
    · subst hkey
      rw [if_pos h, Fields.get?, if_pos rfl, Fields.get?, if_pos rfl]
      rfl
    · rw [Fields.get?, if_neg hkey, ← ih]
      split
      · rw [Fields.get?, if_neg hkey]
      · rfl

section

variable (h : ∀ i, Path.overlapsSome paths (here.child (.index i)) = true)

include h

/-- Where every element is kept, each one keeps its index. -/
theorem getElem?_cutItems (start i : Nat) (items : List Json) :
    (cutItems paths here start items)[i]? =
      items[i]?.map (cutAt paths (here.child (.index (start + i)))) := by
  induction items generalizing start i with
  | nil => rfl
  | cons item rest ih =>
    rw [cutItems, if_pos (h start)]
    cases i with
    | zero => rfl
    | succ i =>
      rw [List.getElem?_cons_succ, List.getElem?_cons_succ, ih]
      congr 4
      omega

theorem length_cutItems (start : Nat) (items : List Json) :
    (cutItems paths here start items).length = items.length := by
  induction items generalizing start with
  | nil => rfl
  | cons item rest ih => rw [cutItems, if_pos (h start), List.length_cons, ih, List.length_cons]

theorem at?_cutAt (i : Nat) (d : Json) :
    (d.cutAt paths here).at? i = (d.at? i).map (cutAt paths (here.child (.index i))) := by
  cases d with
  | array items =>
    rw [cutAt, at?, getElem?_cutItems h, Nat.zero_add]
    rfl
  | object members => rw [cutAt]; rfl
  | _ => rfl

end

theorem get?_cutAt (h : Path.overlapsSome paths (here.child (.name name)) = true) (d : Json) :
    (d.cutAt paths here).get? name = (d.get? name).map (cutAt paths (here.child (.name name))) := by
  cases d with
  | object members =>
    rw [cutAt, get?, get?_cutMembers h]
    rfl
  | array items => rw [cutAt]; rfl
  | _ => rfl

theorem alike_cutAt (paths : List Path) (here : Path) (d : Json) :
    Alike d (d.cutAt paths here) := by
  cases d with
  | array items => rw [cutAt]; exact .array _ _
  | object members => rw [cutAt]; exact .object _ _
  | _ => exact .refl _

theorem getD_map_cutAt (x : Option Json) :
    (x.map (cutAt paths here)).getD .null = (x.getD .null).cutAt paths here := by
  cases x with
  | none => rw [Option.map_none, Option.getD_none, cutAt] <;> simp
  | some v => rfl

theorem length?_cutAt (h : ∀ i, Path.overlapsSome paths (here.child (.index i)) = true) (d : Json) :
    (d.cutAt paths here).length? = d.length? := by
  cases d with
  | array items =>
    rw [cutAt]
    exact congrArg some (length_cutItems h 0 items)
  | object members => rw [cutAt]; rfl
  | _ => rfl

/-- Along a kept path the cut value is like the whole one. -/
theorem sameAlong_cutAt {p : Path} (h : Path.Keeps paths (here.labels ++ p.labels)) (v : Json) :
    SameAlong p v (v.cutAt paths here) := by
  induction p generalizing here v with
  | nil => exact alike_cutAt paths here v
  | cons s rest ih =>
    have hsplit : here.labels ++ Path.labels (s :: rest) =
        (here.child s).labels ++ Path.labels rest := by
      rw [Path.child, Path.labels_append, List.append_assoc]
      rfl
    have hany : Cursor.stepLabel s = .any → SameAlong (.any :: rest) v (v.cutAt paths here) := by
      intro hs
      have hlabels : ∀ i, (here.child (.index i)).labels = (here.child s).labels := by
        intro i
        rw [Path.child, Path.child, Path.labels_append, Path.labels_append]
        exact congrArg (fun t => here.labels ++ [t]) hs.symm
      have hkept : ∀ i, Path.overlapsSome paths (here.child (.index i)) = true := fun i =>
        Path.Keeps.overlapsSome (hlabels i ▸ (hsplit ▸ h).of_append)
      refine ⟨alike_cutAt paths here v, (length?_cutAt hkept v).symm, fun i => ?_⟩
      rw [at?_cutAt hkept, getD_map_cutAt]
      exact ih (hlabels i ▸ hsplit ▸ h) _
    cases s with
    | name key =>
      refine ⟨alike_cutAt paths here v, ?_⟩
      rw [get?_cutAt (Path.Keeps.overlapsSome (hsplit ▸ h).of_append), getD_map_cutAt]
      exact ih (hsplit ▸ h) _
    | index i => exact hany rfl
    | any => exact hany rfl

/-- Along every kept path the cut document is like the whole one. -/
theorem sameAlong_cut (d : Json) {p : Path} (h : Path.Keeps paths p) :
    SameAlong p d (d.cut paths) := by
  have hroot : Path.Keeps paths (Path.root.labels ++ p.labels) := h.labels
  exact sameAlong_cutAt hroot d

end Json

/-- Statements that look at nothing but kept paths run on the cut document as they do on the whole
one. -/
theorem Stmt.runBlock_cut {paths : List Path} {body : List Stmt} {this : Json}
    (h : BlockWatches (Path.Keeps paths) [] body) :
    runBlock (this.cut paths) body [] = runBlock this body [] :=
  (runBlock_of_watches (fun _ => this.sameAlong_cut) h fun _ hv => absurd hv List.not_mem_nil).eq

end Docstore
