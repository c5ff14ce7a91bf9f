import Docstore.Proofs.Query.Typing
import Docstore.Proofs.Record.Positions
import Docstore.Proofs.Script.FieldComparison

/-!
# Membership and comparison with the elements of an array

A membership test searches an array for a value, and so does the comparison of that value with all
elements of the array.

* `FieldRef.lookup_of_ofPath?` : a chain leads where its path leads;
* `searchScript` : a script that runs through an array until it finds an equal element;
* `run_searchScript_of_array`, `run_searchScript_of_not_array` : its answer;
* `Query.run_memberOf` : memberships are such searches, and so is the comparison with the elements.
-/

namespace Docstore

/-! ### Chains without variables -/

namespace FieldRef

variable {p : Path} {ref : FieldRef} {env : Script.Env} {d : Json}

theorem followFrom_of_ofPath? {whole : FieldRef} (h : ofPath? p = some ref) :
    followFrom env whole ref d = .ok (d.follow? p) := by
  induction p generalizing ref d with
  | nil =>
    obtain rfl := Option.some.inj h
    rfl
  | cons s rest ih =>
    cases s with
    | any => cases h
    | name key =>
      obtain ⟨below, hbelow, rfl⟩ := Option.map_eq_some_iff.1 h
      rw [followFrom, Accessor.step, ok_bind, Json.follow?, Json.step?]
      cases d.get? key with
      | none => rfl
      | some v => exact ih hbelow
    | index i =>
      obtain ⟨below, hbelow, rfl⟩ := Option.map_eq_some_iff.1 h
      rw [followFrom, Accessor.step, ok_bind, Json.follow?, Json.step?]
      cases d.at? i with
      | none => rfl
      | some v => exact ih hbelow

/-- A chain without variables leads where its path leads. -/
theorem lookup_of_ofPath? (h : ofPath? p = some ref) (env : Script.Env) (d : Json) :
    ref.lookup env d = .ok (d.follow? p) :=
  followFrom_of_ofPath? h

end FieldRef

namespace Operand

variable {stem : String} {k : Nat} {start ref : FieldRef} {p : Path}

/-- A path without wildcards opens no loop. -/
theorem unroll_of_ofPath? (h : FieldRef.ofPath? p = some ref) (rest : Path) :
    unroll stem k start (p ++ rest) = unroll stem k (start ++ ref) rest := by
  induction p generalizing ref start with
  | nil =>
    obtain rfl := Option.some.inj h
    rw [List.append_nil]
    rfl
  | cons s below ih =>
    cases s with
    | any => cases h
    | _ =>
      obtain ⟨tail, htail, rfl⟩ := Option.map_eq_some_iff.1 h
      rw [List.cons_append, unroll, ih htail, List.append_assoc]
      rfl

theorem ofPath_of_ofPath? (h : FieldRef.ofPath? p = some ref) (stem : String) :
    ofPath stem p = ⟨[], ref⟩ := by
  rw [ofPath_eq_unroll, ← List.append_nil p, unroll_of_ofPath? h]
  rfl

/-- A wildcard behind such a path opens the only loop. -/
theorem ofPath_child_any (h : FieldRef.ofPath? p = some ref) (stem : String) :
    ∃ v, ofPath stem (p.child .any) = ⟨[⟨v, ref⟩], ref.indexed v⟩ := by
  refine ⟨stem ++ Text.natText 0, ?_⟩
  rw [ofPath_eq_unroll, Path.child, unroll_of_ofPath? h]
  rfl

end Operand

/-! ### Searches -/

/-- Answers `found` at the first element of an array that equals a value, and the opposite when
there is none. -/
def searchScript (v : String) (found : Bool) (value array : FieldRef) : Script :=
  ⟨[.forEach v array [.when (.compare .eq (.field value) (.field (array.indexed v)))
      [.resultBool found]], .resultBool !found]⟩

/-- A loop over the elements of a list ends with an answer at the first that has a property. -/
theorem loopFrom_search {body : Nat → Script.Env → Except ScriptError (Flow × Script.Env)}
    {items : List Json} {f : Json → Bool} {b : Bool}
    (hbody : ∀ (i : Nat) x env, items[i]? = some x →
      ∃ env', body i env = .ok (if f x then .result b else .next, env')) :
    ∀ (rest : List Json) (i : Nat) (env : Script.Env), items.drop i = rest →
      ∃ env', loopFrom body rest.length i env =
        .ok (if rest.any f then .result b else .next, env') := by
  intro rest
  induction rest with
  | nil => exact fun i env _ => ⟨env, rfl⟩
  | cons x rest ih =>
    intro i env hrest
    -- The next round is at index `i`, and the rounds after it are over what is left behind it.
    have hx : items[i]? = some x := by
      rw [← Nat.add_zero i, ← List.getElem?_drop, hrest]
      rfl
    have hnext : items.drop (i + 1) = rest := by
      rw [← List.drop_drop, hrest]
      rfl
    obtain ⟨env₁, hone⟩ := hbody i x env hx
    rw [List.length_cons, loopFrom, hone, List.any_cons]
    cases f x with
    | true => exact ⟨env₁, rfl⟩
    | false => exact ih (i + 1) env₁ hnext

section

variable {v : String} {value array : FieldRef} {field other : Path} {d : Json} {items : List Json}

theorem run_searchScript_of_array (hvalue : FieldRef.ofPath? field = some value)
    (harray : FieldRef.ofPath? other = some array) (hitems : d.follow? other = some (.array items))
    (v : String) (found : Bool) :
    (searchScript v found value array).run d =
      .ok (items.any (Comparison.eq.holds ((d.follow? field).getD .null)) == found) := by
  have hlookup (env : Script.Env) : array.lookup env d = .ok (some (.array items)) := by
    rw [FieldRef.lookup_of_ofPath? harray, hitems]
  have hcount : array.count [] d = .ok items.length :=
    FieldRef.count_eq_ok_iff.2 ⟨items, hlookup [], rfl⟩
  -- A round sets its variable first, and the chains have no other, so no round depends on those
  -- before it.
  have hround (i : Nat) (x : Json) (env : Script.Env) (hx : items[i]? = some x) :
      ∃ env', Stmt.runBlock d [.when (.compare .eq (.field value) (.field (array.indexed v)))
          [.resultBool found]] (env.insert v (.int i)) =
        .ok (if Comparison.eq.holds ((d.follow? field).getD .null) x then .result found else .next,
          env') := by
    have hset : Fields.get? v (env.insert v (.int i)) = some (.int i) :=
      Fields.get?_insert_self _ _ _
    have helement := eval_field (FieldRef.lookup_indexed (hlookup (env.insert v (.int i))) hset)
    have hleft := eval_field (FieldRef.lookup_of_ofPath? hvalue (env.insert v (.int i)) d)
    have hx' : (some (Json.array items)).bind (Json.at? i) = some x := hx
    rw [hx', Option.getD_some] at helement
    rw [runBlock_when (eval_compare hleft helement)]
    cases Comparison.eq.holds ((d.follow? field).getD .null) x <;> exact ⟨_, rfl⟩
  obtain ⟨env', hloop⟩ := loopFrom_search hround items 0 [] rfl
  rw [Script.run, searchScript, Stmt.runBlock, Stmt.run, hcount, ok_bind, hloop]
  cases items.any (Comparison.eq.holds ((d.follow? field).getD .null)) <;> cases found <;> rfl

theorem run_searchScript_of_not_array (harray : FieldRef.ofPath? other = some array)
    (hitems : ∀ items, d.follow? other ≠ some (.array items)) (v : String) (found : Bool)
    (value : FieldRef) :
    (searchScript v found value array).run d = .error (.notAnArray array) := by
  have hcount : array.count [] d = .error (.notAnArray array) := by
    rw [FieldRef.count, FieldRef.lookup_of_ofPath? harray, ok_bind]
    cases hfound : d.follow? other with
    | none => rfl
    | some w =>
      cases w with
      | array items => exact absurd hfound (hitems items)
      | _ => rfl
  rw [Script.run, searchScript, Stmt.runBlock, Stmt.run, hcount]
  rfl

end

/-! ### Scripts of membership tests -/

theorem Node.isArray_eq_false_of_scalarType? {n : Node} {f : ScalarType → Bool}
    (h : n.scalarType?.any f = true) : n.isArray = false := by
  rcases n with (_ | _ | _ | _ | _) | _ | _ <;> first | rfl | cases h

theorem Cursor.exists_element? {c : Cursor} (h : c.node.isArray = true) :
    ∃ element, c.element? = some element ∧ element.node.isArray = false := by
  obtain ⟨node, trail⟩ := c
  rcases node with (_ | _ | _ | _ | _) | _ | _
  case field.scalarArray => exact ⟨_, rfl, rfl⟩
  case field.objectArray => exact ⟨_, rfl, rfl⟩
  all_goals cases h

namespace Query

variable {e : Entity} {field array : Path} {op : Membership} {s : Script}

/-- Paths that are accepted in one membership test are accepted in all, and have chains. -/
theorem exists_of_script_memberOf (hs : (memberOf field op array).script e = .ok s) :
    ∃ c l r, e.root.resolve field = .ok c ∧ c.node.isArray = false ∧
      FieldRef.ofPath? field = some l ∧ FieldRef.ofPath? array = some r ∧
      ∀ op : Membership, (memberOf field op array).script e =
        .ok (searchScript memberVar (op == .isIn) l r) := by
  obtain ⟨c, target, l, r, hc, heq, htarget, hl, hr, -⟩ := script_memberOf_eq_ok_iff.1 hs
  exact ⟨c, l, r, hc, Node.isArray_eq_false_of_scalarType? heq, ofPath?_of_fieldRef hl,
    ofPath?_of_fieldRef hr, fun op =>
      script_memberOf_eq_ok_iff.2 ⟨c, target, l, r, hc, heq, htarget, hl, hr, rfl⟩⟩

/-- The comparison of a simple value with the elements of an array is a search. -/
theorem exists_script_compareFields {c target : Cursor} {l r : FieldRef}
    (hc : e.root.resolve field = .ok c) (hsimple : c.node.isArray = false)
    (hl : FieldRef.ofPath? field = some l) (hr : FieldRef.ofPath? array = some r)
    (htarget : e.resolve? array = some target) (harray : target.node.isArray = true) :
    ∃ v, (compareFields field .eq (array.child .any)).script e =
      .ok (searchScript v true l r) := by
  obtain ⟨element, helement, hnode⟩ := Cursor.exists_element? harray
  have hfollow : e.root.follow? (array.child .any) = some element := by
    have harrayNode : e.root.follow? array = some target := htarget
    rw [Path.child, Cursor.follow?_append, harrayNode]
    exact Option.bind_eq_some_iff.2 ⟨target, rfl,
      Option.bind_eq_some_iff.2 ⟨element, helement, rfl⟩⟩
  have hboth : field.any Segment.isAny = false := by
    rw [List.any_eq_false]
    intro segment hmem hany
    cases segment with
    | any =>
      rw [FieldRef.ofPath?_eq_none_iff.2 hmem] at hl
      cases hl
    | _ => cases hany
  obtain ⟨v, hloop⟩ := Operand.ofPath_child_any hr "i"
  refine ⟨v, ?_⟩
  rw [script, hc, ok_bind, Cursor.resolve_of_follow? hfollow, ok_bind, hsimple, hnode,
    comparisonScript, hboth, Bool.false_and]
  simp only [Bool.false_eq_true, if_false, Operand.ofPath_of_ofPath? hl, hloop]
  rfl

/-- Where a path leads to an array, the test whether a value is in it gives the same answer as the
comparison of the value with the elements, or stops in the same way. The test whether the value is
not in it gives the opposite answer. A value is in what is an array and has an equal element. -/
theorem run_memberOf (hs : (memberOf field op array).script e = .ok s)
    (harray : ∃ c, e.resolve? array = some c ∧ c.node.isArray = true) :
    ∃ isIn notIn elements : Script, (memberOf field .isIn array).script e = .ok isIn ∧
      (memberOf field .notIn array).script e = .ok notIn ∧
      (compareFields field .eq (array.child .any)).script e = .ok elements ∧
      ∀ d, isIn.run d = elements.run d ∧ notIn.run d = (isIn.run d).map not ∧
        (isIn.run d = .ok true ↔ ∃ items, d.follow? array = some (.array items) ∧
          ∃ x ∈ items, Comparison.eq.holds ((d.follow? field).getD .null) x = true) := by
  obtain ⟨c, l, r, hc, hsimple, hl, hr, hscript⟩ := exists_of_script_memberOf hs
  obtain ⟨target, htarget, hnode⟩ := harray
  obtain ⟨v, helements⟩ := exists_script_compareFields hc hsimple hl hr htarget hnode
  refine ⟨_, _, _, hscript .isIn, hscript .notIn, helements, fun d => ?_⟩
  by_cases hitems : ∃ items, d.follow? array = some (.array items)
  · obtain ⟨items, hitems⟩ := hitems
    have hrun (v : String) (found : Bool) : (searchScript v found l r).run d =
        .ok (items.any (Comparison.eq.holds ((d.follow? field).getD .null)) == found) :=
      run_searchScript_of_array hl hr hitems v found
    refine ⟨(hrun _ _).trans (hrun _ _).symm, ?_, ?_⟩
    · rw [hrun, hrun]
      cases items.any (Comparison.eq.holds ((d.follow? field).getD .null)) <;> rfl
    · rw [hrun]
      simp [hitems]
  · have hrun (v : String) (found : Bool) :
        (searchScript v found l r).run d = .error (.notAnArray r) :=
      run_searchScript_of_not_array hr (fun items h => hitems ⟨items, h⟩) v found l
    refine ⟨(hrun _ _).trans (hrun _ _).symm, ?_, ?_⟩
    · rw [hrun, hrun]
      rfl
    · rw [hrun]
      refine iff_of_false (by simp) ?_
      rintro ⟨items, h, -⟩
      exact hitems ⟨items, h⟩

/-- A title among tags; where the tags are text, no test has an answer. -/
theorem run_memberOf_tags :
    let e : Entity := ⟨"table", [("title", .scalar .string), ("tags", .scalarArray .string)]⟩
    let d : Json := .object [("title", .string "a"), ("tags", .array [.string "b", .string "a"])]
    let bad : Json := .object [("title", .string "a"), ("tags", .string "a")]
    ∃ isIn notIn elements : Script,
      (memberOf [.name "title"] .isIn [.name "tags"]).script e = .ok isIn ∧
      (memberOf [.name "title"] .notIn [.name "tags"]).script e = .ok notIn ∧
      (compareFields [.name "title"] .eq [.name "tags", .any]).script e = .ok elements ∧
      (isIn.run d = .ok true ∧ elements.run d = .ok true ∧ notIn.run d = .ok false) ∧
      isIn.run bad = .error (.notAnArray [.name "tags"]) ∧
        elements.run bad = .error (.notAnArray [.name "tags"]) ∧
        notIn.run bad = .error (.notAnArray [.name "tags"]) := by
  intro e d bad
  have hscript : (memberOf [.name "title"] .isIn [.name "tags"]).script e =
      .ok (searchScript memberVar true [.name "title"] [.name "tags"]) := rfl
  obtain ⟨isIn, notIn, elements, hisIn, hnotIn, helements, hrun⟩ :=
    run_memberOf hscript ⟨_, rfl, rfl⟩
  obtain rfl := Except.ok.inj (hscript.symm.trans hisIn)
  refine ⟨_, notIn, elements, hisIn, hnotIn, helements, ?_, ?_⟩
  · obtain ⟨hsame, hopposite, hfound⟩ := hrun d
    have htrue := hfound.2 ⟨_, rfl, .string "a", by simp, rfl⟩
    exact ⟨htrue, hsame ▸ htrue, by rw [hopposite, htrue]; rfl⟩
  · obtain ⟨hsame, hopposite, -⟩ := hrun bad
    have herror : (searchScript memberVar true [.name "title"] [.name "tags"]).run bad =
        .error (.notAnArray [.name "tags"]) := rfl
    exact ⟨herror, hsame ▸ herror, by rw [hopposite, herror]; rfl⟩

end Query

end Docstore
