import Docstore.Proofs.Script.FieldComparison
import Docstore.Proofs.Script.Watching

/-!
# What the scripts of queries look at

* `Operand.blockWatches_nest`, `blockWatches_comparisonBody` : the loops and the tests of a script;
* `Query.RunsThrough` : a query looks at the elements of an operand;
* `Query.blockWatches_script` : the script of a query looks at nothing but its operands, and at the
  elements of those that it runs through;
* `Query.run_eq_of_sameAlong` : documents that are alike along the operands give the same answer.

What is looked at is given as a property of labels that holds of everything above a path that it
holds of.
-/

namespace Docstore

variable {K : Path → Prop} {scope : List String} {p : Path}

namespace Stmt

theorem BlockWatches.append {first second : List Stmt} (hfirst : BlockWatches K scope first)
    (hsecond : BlockWatches K scope second) : BlockWatches K scope (first ++ second) := by
  induction first with
  | nil => exact hsecond
  | cons s rest ih => exact ⟨hfirst.1, ih hfirst.2⟩

theorem watches_when {cond : Expr} {yes : List Stmt} (hcond : cond.Watches K scope)
    (hyes : BlockWatches K scope yes) : (when cond yes).Watches K scope := ⟨hcond, hyes, trivial⟩

end Stmt

namespace FieldRef

variable {ref : FieldRef} {v : String}

theorem scoped_nil (scope : List String) : Scoped scope [] := fun _ hv => absurd hv List.not_mem_nil

theorem Scoped.mono {wider : List String} (h : ref.Scoped scope) (hsub : scope ⊆ wider) :
    ref.Scoped wider := fun u hu => hsub (h u hu)

theorem Scoped.indexed (h : ref.Scoped scope) (v : String) :
    (ref.indexed v).Scoped (scope ++ [v]) := by
  intro u hu
  rcases List.mem_append.1 hu with hu | hu
  · exact List.mem_append_left _ (h u hu)
  · obtain rfl : u = v := by simpa using hu
    exact List.mem_append_right _ List.mem_cons_self

theorem Scoped.snoc (h : ref.Scoped scope) {a : Accessor} (ha : ∀ v, a ≠ .var v) :
    Scoped scope (ref ++ [a]) := by
  intro u hu
  rcases List.mem_append.1 hu with hu | hu
  · exact h u hu
  · exact absurd (List.mem_singleton.1 hu).symm (ha u)

/-- The chain of a path without wildcards looks at what the path names, and has no variables. -/
theorem of_ofPath? (h : ofPath? p = some ref) : ref.labels = p.labels ∧ ref.Scoped [] := by
  induction p generalizing ref with
  | nil =>
    obtain rfl := Option.some.inj h
    exact ⟨rfl, scoped_nil []⟩
  | cons s rest ih =>
    cases s with
    | any => cases h
    | _ =>
      obtain ⟨below, hbelow, rfl⟩ := Option.map_eq_some_iff.1 h
      obtain ⟨hlabels, hscoped⟩ := ih hbelow
      refine ⟨congrArg _ hlabels, fun v hv => ?_⟩
      rcases List.mem_cons.1 hv with hv | hv
      · cases hv
      · exact hscoped v hv

end FieldRef

theorem of_fieldRef {ref : FieldRef} (h : fieldRef p = .ok ref) :
    ref.labels = p.labels ∧ ref.Scoped [] :=
  FieldRef.of_ofPath? (ofPath?_of_fieldRef h)

section

variable (hK : ∀ {p q : Path}, K (p ++ q) → K p)

/-! ### Operands -/

namespace Operand

variable {stem : String} {k : Nat} {ref : FieldRef}

/-- An accessor at the end of a chain stands for the first segment of the path below it. -/
theorem labels_snoc {a : Accessor} {s : Segment} {rest : Path} (h : a.label = Cursor.stepLabel s) :
    FieldRef.labels (ref ++ [a]) ++ rest.labels = ref.labels ++ Path.labels (s :: rest) := by
  rw [FieldRef.labels_append, List.append_assoc, Path.labels, Path.labels, List.map_cons, ← h]
  rfl

/-- The chain of an operand looks at what its path names. -/
theorem labels_unroll_ref : (unroll stem k ref p).ref.labels = ref.labels ++ p.labels := by
  induction p generalizing k ref with
  | nil => exact (List.append_nil _).symm
  | cons s rest ih =>
    cases s with
    | name key => exact ih.trans (labels_snoc rfl)
    | index i => exact ih.trans (labels_snoc rfl)
    | any => exact ih.trans (labels_snoc rfl)

/-- The variables of the chain of an operand are those of its loops. -/
theorem scoped_unroll_ref (href : ref.Scoped scope) :
    (unroll stem k ref p).ref.Scoped (scope ++ (unroll stem k ref p).vars) := fun _ hv =>
  List.mem_append.2 ((var_mem_unroll_ref.1 hv).imp_left (href _))

theorem snoc_labels {a : Accessor} {s : Segment} {rest : Path}
    (h : K (ref.labels ++ Path.labels (s :: rest))) (ha : a.label = Cursor.stepLabel s) :
    K (FieldRef.labels (ref ++ [a]) ++ rest.labels) := (labels_snoc ha).symm ▸ h

include hK in
/-- The loops of an operand look at arrays above its path. -/
theorem blockWatches_nest {body : List Stmt} (h : K (ref.labels ++ p.labels))
    (href : ref.Scoped scope)
    (hbody : Stmt.BlockWatches K (scope ++ (unroll stem k ref p).vars) body) :
    Stmt.BlockWatches K scope (nest (unroll stem k ref p).loops body) := by
  induction p generalizing k ref scope with
  | nil => simpa [unroll, vars, nest] using hbody
  | cons s rest ih =>
    cases s with
    | name key => exact ih (snoc_labels h rfl) (href.snoc (by simp)) hbody
    | index i => exact ih (snoc_labels h rfl) (href.snoc (by simp)) hbody
    | any =>
      have harray : K (ref.labels ++ [.any] ++ Path.labels rest) := by
        rw [List.append_assoc]
        exact h
      refine ⟨⟨⟨hK harray, href⟩, ih (snoc_labels h rfl) (href.indexed _) ?_⟩, trivial⟩
      simpa [unroll, vars] using hbody

end Operand

/-! ### Tests -/

variable {l r : FieldRef} {leftArray rightArray : Bool}

theorem watches_indexed {ref : FieldRef} (h : K (ref.labels ++ [.any])) (href : ref.Scoped scope)
    (v : String) : (Expr.field (ref.indexed v)).Watches K (scope ++ [v]) := by
  rw [Expr.Watches, FieldRef.labels_indexed]
  exact ⟨h, href.indexed v⟩

theorem blockWatches_scan {flag : String} {array : FieldRef} {mismatch : Expr}
    (hflag : flag ∉ scope) (hne : flag ≠ elementVar) (harray : K (array.labels ++ [.any]))
    (href : array.Scoped scope) (hmismatch : mismatch.Watches K (scope ++ [elementVar])) :
    Stmt.BlockWatches K scope (scan flag array mismatch) := by
  have hinside : flag ∉ scope ++ [elementVar] := by simp [hflag, hne]
  exact ⟨⟨trivial, rfl, hflag⟩, ⟨⟨harray, href⟩, Stmt.watches_when hmismatch
    ⟨⟨trivial, rfl, hinside⟩, trivial, trivial⟩, trivial⟩, trivial⟩

section

variable (hscope : ∀ v ∈ scope, v ∉ scratch) (hl : l.Scoped scope) (hr : r.Scoped scope)

include hscope hl hr

theorem blockWatches_scalarArray {op : Comparison} (hscalar : K l.labels)
    (harray : K (r.labels ++ [.any])) : Stmt.BlockWatches K scope (scalarArray op l r) := by
  have hmismatch : Expr.Watches K (scope ++ [elementVar])
      (.not (.compare op (.field l) (.field (r.indexed elementVar)))) :=
    ⟨⟨hscalar, hl.mono (List.subset_append_left _ _)⟩, watches_indexed harray hr elementVar⟩
  exact (blockWatches_scan (fun h => hscope _ h (by simp [scratch])) (by decide) harray hr
    hmismatch).append ⟨Stmt.watches_when trivial ⟨trivial, trivial⟩, trivial⟩

theorem blockWatches_arrayArray {op : Comparison} (hleft : K (l.labels ++ [.any]))
    (hright : K (r.labels ++ [.any])) : Stmt.BlockWatches K scope (arrayArray op l r) := by
  have hl' := watches_indexed hleft hl elementVar
  have hr' := watches_indexed hright hr elementVar
  have hflag : (if op.isEquality then "allEq" else "allOk") ∈ scratch := by
    split <;> simp [scratch]
  have hne : (if op.isEquality then "allEq" else "allOk") ≠ elementVar := by
    split <;> decide
  refine ⟨⟨⟨⟨hleft, hl⟩, hright, hr⟩, (blockWatches_scan (fun h => hscope _ h hflag) hne hleft hl
    ?_).append ⟨Stmt.watches_when ?_ ⟨trivial, trivial⟩, trivial⟩, ?_⟩, trivial⟩
  · split
    · exact ⟨hl', hr'⟩
    · exact ⟨hl', hr'⟩
  · split <;> exact trivial
  · split
    · exact ⟨trivial, trivial⟩
    · exact trivial

/-- The test of one choice of indices looks at both operands, and at the elements of those that
are arrays. -/
theorem blockWatches_comparisonBody (op : Comparison) (hleft : K l.labels)
    (hleftArray : leftArray = true → K (l.labels ++ [.any])) (hright : K r.labels)
    (hrightArray : rightArray = true → K (r.labels ++ [.any])) :
    Stmt.BlockWatches K scope (comparisonBody op l leftArray r rightArray) := by
  cases leftArray with
  | true =>
    cases rightArray with
    | true => exact blockWatches_arrayArray hscope hl hr (hleftArray rfl) (hrightArray rfl)
    | false => exact blockWatches_scalarArray hscope hr hl hright (hleftArray rfl)
  | false =>
    cases rightArray with
    | true => exact blockWatches_scalarArray hscope hl hr hleft (hrightArray rfl)
    | false =>
      exact ⟨Stmt.watches_when ⟨⟨hleft, hl⟩, hright, hr⟩ ⟨trivial, trivial⟩, trivial⟩

end

/-! ### Queries -/

/-- The script of a membership test looks at the left chain and at the elements of the right
one. -/
theorem blockWatches_membershipScript {op : Membership} (hleft : K l.labels) (hl : l.Scoped [])
    (hright : K (r.labels ++ [.any])) (hr : r.Scoped []) :
    Stmt.BlockWatches K [] (membershipScript op l r).body := by
  have hcond : Expr.Watches K ([] ++ [memberVar])
      (.compare .eq (.field l) (.field (r.indexed memberVar))) :=
    ⟨⟨hleft, hl.mono (List.nil_subset _)⟩, watches_indexed hright hr memberVar⟩
  exact ⟨⟨⟨hright, hr⟩, Stmt.watches_when hcond ⟨trivial, trivial⟩, trivial⟩, trivial, trivial⟩

include hK in
/-- The script of a comparison looks at what its paths name, and at the elements of operands
that are arrays. -/
theorem blockWatches_comparisonScript {field other : Path} {op : Comparison}
    (hleft : K field.labels) (hleftArray : leftArray = true → K (field.labels ++ [.any]))
    (hright : K other.labels) (hrightArray : rightArray = true → K (other.labels ++ [.any])) :
    Stmt.BlockWatches K [] (comparisonScript field leftArray op other rightArray).body := by
  have hchain : ∀ stem p, (Operand.unroll stem 0 [] p).ref.labels = Path.labels p :=
    fun stem p => Operand.labels_unroll_ref
  refine Stmt.BlockWatches.append ?_ ⟨trivial, trivial⟩
  rw [Operand.nest_append, Operand.ofPath_eq_unroll, Operand.ofPath_eq_unroll]
  refine Operand.blockWatches_nest hK hright (FieldRef.scoped_nil _)
    (Operand.blockWatches_nest hK hleft (FieldRef.scoped_nil _) ?_)
  -- Both stems are such that no variable of a loop is one of the statements inside.
  have hstem : ∀ stem : String, stem ∈ ["l", "r", "i"] → ∀ p v,
      v ∈ (Operand.unroll stem 0 [] p).vars → v ∉ scratch :=
    fun stem hstem p v => loopVar_not_mem_scratch hstem
  refine blockWatches_comparisonBody (fun v hv => ?_)
    (Operand.scoped_unroll_ref (FieldRef.scoped_nil _))
    ((Operand.scoped_unroll_ref (FieldRef.scoped_nil _)).mono (List.subset_append_left _ _))
    op ?_ ?_ ?_ ?_
  · rcases List.mem_append.1 hv with hv | hv
    · exact hstem _ (by split <;> simp) other v hv
    · exact hstem _ (by split <;> simp) field v hv
  all_goals
    rw [hchain]
    assumption

end

namespace Query

variable {e : Entity} {q : Query}

/-- The query runs through the elements of the operand at a path that leads to a node. -/
def RunsThrough : Query → Path → Cursor → Prop
  | .memberOf _ _ array, p, _ => p = array
  | _, _, c => c.node.isArray = true

/-- The script of a query looks at nothing but its operands, and at the elements of those that it
runs through. -/
theorem blockWatches_script_of {s : Script} (hK : ∀ {p q : Path}, K (p ++ q) → K p)
    (hread : ∀ p c, p ∈ q.fieldsRead .root → e.resolve? p = some c →
      K p.labels ∧ (q.RunsThrough p c → K (p.labels ++ [.any])))
    (hs : q.script e = .ok s) : Stmt.BlockWatches K [] s.body := by
  cases q with
  | compareFields field op other =>
    obtain ⟨l, r, hl, hr, rfl⟩ := script_compareFields_eq_ok_iff.1 hs
    obtain ⟨hleft, hleftArray⟩ := hread field l List.mem_cons_self (Cursor.follow?_of_resolve hl)
    obtain ⟨hright, hrightArray⟩ := hread other r (List.mem_cons_of_mem _ List.mem_cons_self)
      (Cursor.follow?_of_resolve hr)
    exact blockWatches_comparisonScript hK hleft hleftArray hright hrightArray
  | memberOf field op array =>
    obtain ⟨c, a, l, r, hc, -, ha, hl, hr, rfl⟩ := script_memberOf_eq_ok_iff.1 hs
    obtain ⟨hleftLabels, hleft⟩ := of_fieldRef hl
    obtain ⟨hrightLabels, hright⟩ := of_fieldRef hr
    refine blockWatches_membershipScript ?_ hleft ?_ hright
    · rw [hleftLabels]
      exact (hread field c List.mem_cons_self (Cursor.follow?_of_resolve hc)).1
    · rw [hrightLabels]
      exact (hread array a (List.mem_cons_of_mem _ List.mem_cons_self)
        (Cursor.follow?_of_resolve ha)).2 rfl
  | _ => cases hs

/-- The script of a query gives the same answer, or stops in the same way, on documents that are
alike along its operands and their elements. -/
theorem run_eq_of_sameAlong {s : Script} {this this' : Json} (hs : q.script e = .ok s)
    (h : ∀ p c, p ∈ q.fieldsRead .root → e.resolve? p = some c →
      Json.SameAlong (p.labels ++ [.any]) this this') : s.run this' = s.run this := by
  refine Script.run_of_watches (fun _ hp => hp) (blockWatches_script_of (e := e)
    Json.SameAlong.of_append (fun p c hread hc => ?_) hs)
  exact ⟨(h p c hread hc).of_append, fun _ => h p c hread hc⟩

end Query

end Docstore
