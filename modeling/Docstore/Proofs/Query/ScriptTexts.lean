import Docstore.Proofs.Except
import Docstore.Proofs.Script.Unambiguous
import Docstore.Proofs.Script.Wildcards
import Docstore.Query.Native

/-!
# The scripts of queries and their texts

Queries that compare fields with each other are handed to the store as texts. The variables of their
scripts are names of variables, so the texts tell the scripts apart as long as the names of fields
can be written in a script.

* `Query.WellNamed` : the names that a query reads can be written in a script;
* `Operand.wellNamed_unroll`, `blockWellNamed_comparisonBody` : what the parts of a script are
  called;
* `Query.wellNamed_script` : the script of a query is well named;
* `Mapper.text_determines_script` : texts tell scripts apart, and so queries with different scripts
  are different native queries.
-/

namespace Docstore

open Script (IsName IsVariable)

/-- The names of a path can be written in a script. -/
def Path.WellNamed (p : Path) : Prop := ∀ key, .name key ∈ p → IsName key

/-- The names that a query reads can be written in a script. -/
def Query.WellNamed (q : Query) : Prop := ∀ p ∈ q.fieldsRead .root, p.WellNamed

/-! ### Variables -/

/-- The variables of loops are a letter and a number. -/
theorem isVariable_numbered {stem : String} (hstem : stem ∈ ["l", "r", "i"]) (n : Nat) :
    IsVariable (stem ++ Text.natText n) := by
  have htext : (stem ++ Text.natText n).toList = stem.toList ++ Text.natDigits n := by
    simp [Text.natText]
  have hstemChars : ∀ stem ∈ ["l", "r", "i"], stem.toList.all Script.isNameChar = true ∧
      stem.toList.head?.all Script.isNameStart = true ∧ stem.toList ≠ [] := by decide
  obtain ⟨hchars, hstart, hne⟩ := hstemChars stem hstem
  -- There is a digit, and no word that is taken has one.
  have hword : ∀ w ∈ "length" :: Script.reserved, stem ++ Text.natText n ≠ w := by
    rintro w hw rfl
    have hletters : ∀ w ∈ "length" :: Script.reserved, w.toList.any Char.isDigit = false := by
      decide
    obtain ⟨c, hc⟩ := List.exists_mem_of_ne_nil _ (Text.natDigits_ne_nil n)
    exact List.any_eq_false.1 (hletters _ hw) c (htext ▸ List.mem_append_right _ hc)
      (Text.isDigit_of_mem_natDigits hc)
  refine ⟨⟨?_, ?_, hword _ List.mem_cons_self⟩, ?_, fun hmem =>
    hword _ (List.mem_cons_of_mem _ hmem) rfl⟩
  · intro hempty
    rw [hempty] at htext
    exact hne (List.append_eq_nil_iff.1 htext.symm).1
  · rw [htext, List.all_append, hchars, Bool.true_and, List.all_eq_true]
    exact fun c hc => isNameChar_of_isDigit (Text.isDigit_of_mem_natDigits hc)
  · cases hletters : stem.toList with
    | nil => exact absurd hletters hne
    | cons first more =>
      rw [hletters] at hstart
      rw [htext, hletters]
      exact hstart

/-- The other variables are fixed. -/
theorem isVariable_fixed : ∀ v ∈ [elementVar, memberVar, "allEq", "allOk"], IsVariable v := by
  decide

/-! ### Parts of scripts -/

namespace FieldRef

variable {ref : FieldRef} {p : Path}

theorem WellNamed.snoc (h : ref.WellNamed) {a : Accessor} (ha : a.WellNamed) :
    WellNamed (ref ++ [a]) := by
  intro b hb
  rcases List.mem_append.1 hb with hb | hb
  · exact h b hb
  · rwa [List.mem_singleton.1 hb]

theorem WellNamed.indexed (h : ref.WellNamed) {v : String} (hv : IsVariable v) :
    (ref.indexed v).WellNamed := h.snoc hv

theorem wellNamed_ofPath? (h : ofPath? p = some ref) (hp : p.WellNamed) : ref.WellNamed := by
  induction p generalizing ref with
  | nil =>
    obtain rfl := Option.some.inj h
    exact fun a ha => nomatch ha
  | cons s rest ih =>
    have hrest : Path.WellNamed rest := fun key hkey => hp key (List.mem_cons_of_mem _ hkey)
    cases s with
    | any => cases h
    | name key =>
      obtain ⟨below, hbelow, rfl⟩ := Option.map_eq_some_iff.1 h
      exact List.forall_mem_cons.2 ⟨hp key List.mem_cons_self, ih hbelow hrest⟩
    | index i =>
      obtain ⟨below, hbelow, rfl⟩ := Option.map_eq_some_iff.1 h
      exact List.forall_mem_cons.2 ⟨trivial, ih hbelow hrest⟩

end FieldRef

theorem wellNamed_fieldRef {p : Path} {ref : FieldRef} (h : fieldRef p = .ok ref)
    (hp : p.WellNamed) : ref.WellNamed :=
  FieldRef.wellNamed_ofPath? (ofPath?_of_fieldRef h) hp

namespace Stmt

theorem BlockWellNamed.append {first second : List Stmt} (hfirst : BlockWellNamed first)
    (hsecond : BlockWellNamed second) : BlockWellNamed (first ++ second) := by
  induction first with
  | nil => exact hsecond
  | cons s rest ih => exact ⟨hfirst.1, ih hfirst.2⟩

theorem wellNamed_when {cond : Expr} {yes : List Stmt} (hcond : cond.WellNamed)
    (hyes : BlockWellNamed yes) : (when cond yes).WellNamed := ⟨hcond, hyes, trivial⟩

end Stmt

namespace Operand

/-- The loops of an operand run over well-named chains with variables, and its chain in them is
well named. -/
theorem wellNamed_unroll {stem : String} (hstem : stem ∈ ["l", "r", "i"]) {k : Nat}
    {ref : FieldRef} {p : Path} (href : ref.WellNamed) (hp : p.WellNamed) :
    (unroll stem k ref p).ref.WellNamed ∧
      ∀ loop ∈ (unroll stem k ref p).loops, IsVariable loop.var ∧ loop.array.WellNamed := by
  induction p generalizing k ref with
  | nil => exact ⟨href, fun loop hloop => nomatch hloop⟩
  | cons s rest ih =>
    have hrest : Path.WellNamed rest := fun key hkey => hp key (List.mem_cons_of_mem _ hkey)
    cases s with
    | name key => exact ih (href.snoc (hp key List.mem_cons_self)) hrest
    | index i => exact ih (href.snoc trivial) hrest
    | any =>
      have hv := isVariable_numbered hstem k
      obtain ⟨hbelow, hloops⟩ := ih (href.indexed hv) hrest
      exact ⟨hbelow, List.forall_mem_cons.2 ⟨⟨hv, href⟩, hloops⟩⟩

theorem blockWellNamed_nest {loops : List Loop} {body : List Stmt}
    (hloops : ∀ loop ∈ loops, IsVariable loop.var ∧ loop.array.WellNamed)
    (hbody : Stmt.BlockWellNamed body) : Stmt.BlockWellNamed (nest loops body) := by
  induction loops with
  | nil => exact hbody
  | cons loop rest ih =>
    obtain ⟨⟨hv, harray⟩, hrest⟩ := List.forall_mem_cons.1 hloops
    exact ⟨⟨hv, harray, ih hrest⟩, trivial⟩

end Operand

/-! ### Tests -/

section

variable {l r : FieldRef} {op : Comparison}

theorem blockWellNamed_scan {flag : String} {array : FieldRef} {mismatch : Expr}
    (hflag : flag ∈ ["allEq", "allOk"]) (harray : array.WellNamed)
    (hmismatch : mismatch.WellNamed) : Stmt.BlockWellNamed (scan flag array mismatch) := by
  have hv : IsVariable flag := isVariable_fixed _ (by simp_all)
  exact ⟨⟨hv, trivial⟩, ⟨isVariable_fixed _ (by simp), harray, Stmt.wellNamed_when hmismatch
    ⟨⟨hv, trivial⟩, trivial, trivial⟩, trivial⟩, trivial⟩

variable (hl : l.WellNamed) (hr : r.WellNamed)

include hl hr

theorem blockWellNamed_scalarArray : Stmt.BlockWellNamed (scalarArray op l r) := by
  have hmismatch : Expr.WellNamed
      (.not (.compare op (.field l) (.field (r.indexed elementVar)))) :=
    ⟨⟨hl, trivial⟩, hr.indexed (isVariable_fixed _ (by simp)), trivial⟩
  exact (blockWellNamed_scan (by simp) hr hmismatch).append
    ⟨Stmt.wellNamed_when (isVariable_fixed _ (by simp)) ⟨trivial, trivial⟩, trivial⟩

theorem blockWellNamed_arrayArray : Stmt.BlockWellNamed (arrayArray op l r) := by
  have hv : IsVariable elementVar := isVariable_fixed _ (by simp)
  have hflag : (if op.isEquality then "allEq" else "allOk") ∈ ["allEq", "allOk"] := by
    split <;> simp
  have hflagVar : IsVariable (if op.isEquality then "allEq" else "allOk") := by
    split <;> exact isVariable_fixed _ (by simp)
  have hmismatch : Expr.WellNamed (if op.isEquality then
      .compare .neq (.field (l.indexed elementVar)) (.field (r.indexed elementVar))
      else .not (.compare op (.field (l.indexed elementVar)) (.field (r.indexed elementVar)))) := by
    split <;> exact ⟨⟨hl.indexed hv, trivial⟩, hr.indexed hv, trivial⟩
  have hverdict : Expr.WellNamed (if op = .neq then
      .not (.var (if op.isEquality then "allEq" else "allOk"))
      else .var (if op.isEquality then "allEq" else "allOk")) := by
    split <;> exact hflagVar
  refine ⟨⟨⟨⟨hl, trivial⟩, hr, trivial⟩, (blockWellNamed_scan hflag hl hmismatch).append
    ⟨Stmt.wellNamed_when hverdict ⟨trivial, trivial⟩, trivial⟩, ?_⟩, trivial⟩
  split
  · exact ⟨trivial, trivial⟩
  · exact trivial

theorem blockWellNamed_comparisonBody (leftArray rightArray : Bool) :
    Stmt.BlockWellNamed (comparisonBody op l leftArray r rightArray) := by
  cases leftArray with
  | true =>
    cases rightArray with
    | true => exact blockWellNamed_arrayArray hl hr
    | false => exact blockWellNamed_scalarArray hr hl
  | false =>
    cases rightArray with
    | true => exact blockWellNamed_scalarArray hl hr
    | false =>
      exact ⟨Stmt.wellNamed_when ⟨⟨hl, trivial⟩, hr, trivial⟩ ⟨trivial, trivial⟩, trivial⟩

end

/-! ### Queries -/

section

variable {field other : Path}

theorem wellNamed_comparisonScript (hfield : field.WellNamed) (hother : other.WellNamed)
    (leftArray : Bool) (op : Comparison) (rightArray : Bool) :
    (comparisonScript field leftArray op other rightArray).WellNamed := by
  have hoperand : ∀ stem p, stem ∈ ["l", "r", "i"] → Path.WellNamed p →
      (Operand.ofPath stem p).ref.WellNamed ∧
        ∀ loop ∈ (Operand.ofPath stem p).loops, IsVariable loop.var ∧ loop.array.WellNamed := by
    intro stem p hstem hp
    rw [Operand.ofPath_eq_unroll]
    exact Operand.wellNamed_unroll hstem (fun a ha => nomatch ha) hp
  have hstems : ∀ both : Bool, (if both then "l" else "i") ∈ ["l", "r", "i"] ∧
      (if both then "r" else "i") ∈ ["l", "r", "i"] := by decide
  obtain ⟨hleft, hright⟩ := hstems (field.any Segment.isAny && other.any Segment.isAny)
  obtain ⟨hl, hlLoops⟩ := hoperand _ field hleft hfield
  obtain ⟨hr, hrLoops⟩ := hoperand _ other hright hother
  exact (Operand.blockWellNamed_nest (List.forall_mem_append.2 ⟨hrLoops, hlLoops⟩)
    (blockWellNamed_comparisonBody hl hr leftArray rightArray)).append ⟨trivial, trivial⟩

theorem wellNamed_membershipScript {l r : FieldRef} (hl : l.WellNamed) (hr : r.WellNamed)
    (op : Membership) : (membershipScript op l r).WellNamed := by
  have hv : IsVariable memberVar := isVariable_fixed _ (by simp)
  exact ⟨⟨hv, hr, Stmt.wellNamed_when ⟨⟨hl, trivial⟩, hr.indexed hv, trivial⟩ ⟨trivial, trivial⟩,
    trivial⟩, trivial, trivial⟩

end

/-- The script of a query is well named when the names that the query reads are. -/
theorem Query.wellNamed_script {e : Entity} {q : Query} {s : Script} (hq : q.WellNamed)
    (hs : q.script e = .ok s) : s.WellNamed := by
  cases q with
  | compareFields field op other =>
    obtain ⟨l, r, hl, hr, rfl⟩ := script_compareFields_eq_ok_iff.1 hs
    exact wellNamed_comparisonScript (hq field List.mem_cons_self)
      (hq other (List.mem_cons_of_mem _ List.mem_cons_self)) _ op _
  | memberOf field op array =>
    obtain ⟨c, a, l, r, -, -, -, hl, hr, rfl⟩ := script_memberOf_eq_ok_iff.1 hs
    exact wellNamed_membershipScript (wellNamed_fieldRef hl (hq field List.mem_cons_self))
      (wellNamed_fieldRef hr (hq array (List.mem_cons_of_mem _ List.mem_cons_self))) op
  | _ => cases hs

namespace Mapper

/-- A query with a script is handed to the store as the text of the script. -/
theorem nativeQuery_of_script (m : Mapper) {e : Entity} {q : Query} {s : Script}
    (hs : q.script e = .ok s) : m.nativeQuery e q = .ok [("$where", .string s.text)] := by
  have hroot : e.root.isRoot = true := rfl
  cases q with
  | compareFields field op other =>
    rw [nativeQuery, queryIn, if_pos hroot, hs]
    rfl
  | memberOf field op array =>
    rw [nativeQuery, queryIn, if_pos hroot, hs]
    rfl
  | _ => cases hs

/-- The text of a script tells it, when its names can be written in a script and no comparison is
compared. So queries that become different scripts are handed to the store as different texts. -/
theorem text_determines_script (m : Mapper) :
    (∀ s s' : Script, s.WellNamed → s'.WellNamed → s.text = s'.text → s = s') ∧
      ∀ (e e' : Entity) (q q' : Query) (s s' : Script), q.WellNamed → q'.WellNamed →
        q.script e = .ok s → q'.script e' = .ok s' → s ≠ s' →
          m.nativeQuery e q = .ok [("$where", .string s.text)] ∧
            m.nativeQuery e' q' = .ok [("$where", .string s'.text)] ∧ s.text ≠ s'.text := by
  refine ⟨fun s s' => Script.eq_of_text, fun e e' q q' s s' hq hq' hs hs' hne => ?_⟩
  refine ⟨nativeQuery_of_script m hs, nativeQuery_of_script m hs', fun htext => hne ?_⟩
  exact Script.eq_of_text (Query.wellNamed_script hq hs) (Query.wellNamed_script hq' hs') htext

/-- A second branch is not taken for a statement after the first one, and the two ways to look
for a smaller value in the rows of a table are two texts. -/
theorem text_determines_script_rows :
    let m : Mapper := { entities := [] }
    let e : Entity := ⟨"table", [("rows", .objectArray [("least", .scalar .integer)]),
      ("most", .scalar .integer)]⟩
    let least : Path := [.name "rows", .any, .name "least"]
    let most : Path := [.name "most"]
    let inside : Script := ⟨[.branch (.var "found") [.leave] [.resultBool true]]⟩
    let behind : Script := ⟨[.branch (.var "found") [.leave] [], .resultBool true]⟩
    inside.text ≠ behind.text ∧ ∃ s s' : Script,
      m.nativeQuery e (.compareFields least .lt most) = .ok [("$where", .string s.text)] ∧
        m.nativeQuery e (.compareFields most .gt least) = .ok [("$where", .string s'.text)] ∧
          s.text ≠ s'.text := by
  intro m e least most inside behind
  obtain ⟨htrees, hqueries⟩ := text_determines_script m
  have hnames : ∀ name ∈ ["rows", "least", "most"], IsName name := by decide
  have hfound : IsVariable "found" := by decide
  have hinside : inside.WellNamed := ⟨⟨hfound, ⟨trivial, trivial⟩, trivial, trivial⟩, trivial⟩
  have hbehind : behind.WellNamed := ⟨⟨hfound, ⟨trivial, trivial⟩, trivial⟩, trivial, trivial⟩
  have hpaths : ∀ p ∈ [least, most], Path.WellNamed p := by
    intro p hp key hkey
    refine hnames key ?_
    simp only [List.mem_cons, List.not_mem_nil, or_false] at hp
    rcases hp with rfl | rfl
    · simp only [least, List.mem_cons, Segment.name.injEq, List.not_mem_nil, or_false, reduceCtorEq,
        false_or] at hkey
      rcases hkey with rfl | rfl
      · decide
      · decide
    · simp only [most, List.mem_singleton, Segment.name.injEq] at hkey
      subst hkey
      decide
  refine ⟨fun htext => ?_, _, _, hqueries e e _ _ _ _ ?_ ?_ rfl rfl ?_⟩
  · have htree := congrArg (fun s => s.body.length) (htrees inside behind hinside hbehind htext)
    cases htree
  · exact fun p hp => hpaths p hp
  · intro p hp
    have hp : p ∈ [most, least] := hp
    exact hpaths p (by simpa [or_comm] using hp)
  · intro h
    cases h

end Mapper

end Docstore
