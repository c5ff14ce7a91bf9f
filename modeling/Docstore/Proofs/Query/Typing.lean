import Docstore.Proofs.Query.Literals
import Docstore.Proofs.Refusal

/-!
# Typing of queries

A query is typed in a context, the root of the entity or, inside an element match, the elements of
an array. What is typed has a native form, and what is not is refused for the first fault.

* `Query.WellTyped` : the typing of queries;
* `Query.occurrences` : the subqueries with their contexts, outer ones first and from left to right;
* `Fault` : what is wrong with a query itself, its subqueries aside, and the error for it;
* `FirstFault` : the error for the first query of a list that something is wrong with;
* `Mapper.nativeQuery_typing` : exactly the well-typed queries have a native form, and the others
  are refused for their first fault.

That a query is refused for its faults (`queryIn_of_fault`), has a native form when it is well
typed, and has a fault when it is not are three facts for each kind of query. The converses follow
from them, and that a query has one fault only.
-/

namespace Docstore

/-! ### Typing -/

namespace Cursor

/-- The type of the simple value that a path leads to. -/
def typeAt? (context : Cursor) (p : Path) : Option ScalarType :=
  (context.follow? p).bind fun c => c.node.scalarType?

/-- The type of the elements of the array of simple values that a path leads to. -/
def itemsAt? (context : Cursor) (p : Path) : Option ScalarType :=
  (context.follow? p).bind fun c => c.node.scalarItems?

/-- The elements of the array of objects that a path leads to. -/
def rowsAt? (context : Cursor) (p : Path) : Option Cursor :=
  (context.follow? p).bind fun c => if c.node.isObjectArray then c.element? else none

end Cursor

/-- Values of a type can be compared in this way. -/
def Comparison.supportedBy (op : Comparison) (t : ScalarType) : Bool :=
  if op.isEquality then t.supportsEquality else t.supportsOrdering

/-- There are literals, and all of them can be cast to the type. -/
def ScalarType.Takes (t : ScalarType) (values : List Json) : Prop :=
  values ≠ [] ∧ ∀ v ∈ values, ∃ c, t.cast v = .ok c

namespace Query

mutual

/-- The query is well typed when its paths start at `context`. Fields are compared with each other
in the document only. -/
def WellTyped (e : Entity) (context : Cursor) : Query → Prop
  | .compare field op value =>
    ∃ t, context.typeAt? field = some t ∧ op.supportedBy t = true ∧ ∃ c, t.cast value = .ok c
  | .member field _ values =>
    ∃ t, context.typeAt? field = some t ∧ t.supportsEquality = true ∧ t.Takes values
  | .regex field _ _ => ∃ c, context.follow? field = some c
  | .contains array _ values => ∃ t, context.itemsAt? array = some t ∧ t.Takes values
  | .elemMatch array query =>
    ∃ element, context.rowsAt? array = some element ∧ WellTyped e element query
  | .combine _ queries => AllWellTyped e context queries
  | .negate query => WellTyped e context query
  | .compareFields field _ other =>
    context.isRoot = true ∧ (∃ c, e.resolve? field = some c) ∧ ∃ c, e.resolve? other = some c
  | .memberOf field _ array =>
    context.isRoot = true ∧ (∃ t, e.typeAt? field = some t ∧ t.supportsEquality = true) ∧
      (∃ c, e.resolve? array = some c) ∧ .any ∉ field ∧ .any ∉ array

/-- Every query of a list is well typed. -/
def AllWellTyped (e : Entity) (context : Cursor) : List Query → Prop
  | [] => True
  | query :: rest => WellTyped e context query ∧ AllWellTyped e context rest

end

end Query

/-! ### Faults -/

/-- What is wrong with a list of literals of a type. -/
inductive LiteralFault (t : ScalarType) (field : Path) : List Json → Error → Prop where
  | empty : LiteralFault t field [] (.emptyValueList field)
  | cast {values : List Json} {cause : CastError}
      (h : values.findSome? t.castError? = some cause) :
      LiteralFault t field values (.conversion .query cause)

/-- What is wrong with a query itself, when its paths start at `context`. What is checked first goes
first: every fault comes with what has been found in order before. -/
inductive Fault (e : Entity) (context : Cursor) : Query → Error → Prop where
  | compareUnknown {field op v} (h : context.follow? field = none) :
      Fault e context (.compare field op v) (.invalidField field)
  | compareUnsupported {field op v c} (hc : context.follow? field = some c)
      (h : ∀ t, c.node.scalarType? = some t → op.supportedBy t = false) :
      Fault e context (.compare field op v) (.invalidComparison field op v)
  | compareLiteral {field op v t cause} (ht : context.typeAt? field = some t)
      (hop : op.supportedBy t = true) (h : t.cast v = .error cause) :
      Fault e context (.compare field op v) (.conversion .query cause)
  | memberUnsupported {field op values}
      (h : ∀ t, context.typeAt? field = some t → t.supportsEquality = false) :
      Fault e context (.member field op values) (.invalidField field)
  | memberLiterals {field op values t err} (ht : context.typeAt? field = some t)
      (heq : t.supportsEquality = true) (h : LiteralFault t field values err) :
      Fault e context (.member field op values) err
  | regexUnknown {field pattern flags} (h : context.follow? field = none) :
      Fault e context (.regex field pattern flags) (.invalidField field)
  | containsUnsupported {array op values} (h : context.itemsAt? array = none) :
      Fault e context (.contains array op values) (.invalidField array)
  | containsLiterals {array op values t err} (ht : context.itemsAt? array = some t)
      (h : LiteralFault t array values err) : Fault e context (.contains array op values) err
  | elemMatchUnsupported {array query} (h : context.rowsAt? array = none) :
      Fault e context (.elemMatch array query) (.invalidField array)
  | compareFieldsNested {field op other} (h : context.isRoot = false) :
      Fault e context (.compareFields field op other)
        (.nestedFieldComparison (.compareFields field op other))
  | compareFieldsUnknown {field op other} (hroot : context.isRoot = true)
      (h : e.resolve? field = none) :
      Fault e context (.compareFields field op other) (.invalidField field)
  | compareFieldsUnknownOther {field op other c} (hroot : context.isRoot = true)
      (hfield : e.resolve? field = some c) (h : e.resolve? other = none) :
      Fault e context (.compareFields field op other) (.invalidField other)
  | memberOfNested {field op array} (h : context.isRoot = false) :
      Fault e context (.memberOf field op array)
        (.nestedFieldComparison (.memberOf field op array))
  | memberOfUnsupported {field op array} (hroot : context.isRoot = true)
      (h : ∀ t, e.typeAt? field = some t → t.supportsEquality = false) :
      Fault e context (.memberOf field op array) (.invalidField field)
  | memberOfUnknownArray {field op array t} (hroot : context.isRoot = true)
      (ht : e.typeAt? field = some t) (heq : t.supportsEquality = true)
      (h : e.resolve? array = none) :
      Fault e context (.memberOf field op array) (.invalidField array)
  | memberOfWildcard {field op array t c} (hroot : context.isRoot = true)
      (ht : e.typeAt? field = some t) (heq : t.supportsEquality = true)
      (harray : e.resolve? array = some c) (h : .any ∈ field) :
      Fault e context (.memberOf field op array) (.unusablePath field)
  | memberOfWildcardArray {field op array t c} (hroot : context.isRoot = true)
      (ht : e.typeAt? field = some t) (heq : t.supportsEquality = true)
      (harray : e.resolve? array = some c) (hfield : .any ∉ field) (h : .any ∈ array) :
      Fault e context (.memberOf field op array) (.unusablePath array)

/-- A query and the node at which its paths start. -/
structure Occurrence where
  context : Cursor
  query : Query

/-- What is wrong with a query in its context. -/
def Occurrence.Fault (e : Entity) (s : Occurrence) (err : Error) : Prop :=
  Docstore.Fault e s.context s.query err

namespace Query

mutual

/-- The query and every query inside it with their contexts, outer ones first and from left to
right. There are no elements below what is no array of objects. -/
def occurrences (context : Cursor) : Query → List Occurrence
  | .combine op queries => ⟨context, .combine op queries⟩ :: occurrencesOfAll context queries
  | .negate query => ⟨context, .negate query⟩ :: occurrences context query
  | .elemMatch array query =>
    ⟨context, .elemMatch array query⟩ ::
      match context.rowsAt? array with
      | some element => occurrences element query
      | none => []
  | query => [⟨context, query⟩]

/-- The queries of a list and every query inside them, with their contexts. -/
def occurrencesOfAll (context : Cursor) : List Query → List Occurrence
  | [] => []
  | query :: rest => occurrences context query ++ occurrencesOfAll context rest

end

/-- The query has no other ones inside it. -/
def IsSimple : Query → Prop
  | .combine _ _ => False
  | .negate _ => False
  | .elemMatch _ _ => False
  | _ => True

theorem occurrences_of_isSimple {q : Query} (hq : q.IsSimple) (context : Cursor) :
    q.occurrences context = [⟨context, q⟩] := by
  cases q with
  | combine op queries => exact hq.elim
  | negate query => exact hq.elim
  | elemMatch array query => exact hq.elim
  | _ => rfl

end Query

/-- The error for the first query that something is wrong with. -/
inductive FirstFault (e : Entity) : List Occurrence → Error → Prop where
  | here {s rest err} (h : s.Fault e err) : FirstFault e (s :: rest) err
  | later {s rest err} (hs : ∀ err, ¬ s.Fault e err) (h : FirstFault e rest err) :
      FirstFault e (s :: rest) err

namespace FirstFault

variable {e : Entity} {ss ss' : List Occurrence} {err : Error}

/-- It is the first fault that a walk over the queries meets. -/
theorem iff_firstOf : FirstFault e ss err ↔ FirstOf (Occurrence.Fault e) ss err := by
  constructor
  · intro h
    induction h with
    | here h => exact .here h
    | later hs _ ih => exact .later hs ih
  · intro h
    induction h with
    | here h => exact .here h
    | later hs _ ih => exact .later hs ih

theorem append_left (h : FirstFault e ss err) : FirstFault e (ss ++ ss') err :=
  iff_firstOf.2 (iff_firstOf.1 h).append_left

theorem append_right (hss : ∀ s ∈ ss, ∀ err, ¬ s.Fault e err) (h : FirstFault e ss' err) :
    FirstFault e (ss ++ ss') err :=
  iff_firstOf.2 ((iff_firstOf.1 h).append_right hss)

theorem exists_mem (h : FirstFault e ss err) : ∃ s ∈ ss, s.Fault e err :=
  (iff_firstOf.1 h).exists_mem

end FirstFault

/-! ### Literals -/

section

variable {t : ScalarType} {field : Path} {values : List Json} {err : Error}

open Mapper (StopsAt stopsAt_literals_of_ne_nil)

theorem findSome?_castError?_eq_none_iff :
    values.findSome? t.castError? = none ↔ ∀ v ∈ values, ∃ c, t.cast v = .ok c := by
  rw [List.findSome?_eq_none_iff]
  refine forall₂_congr fun v _ => ?_
  rw [ScalarType.castError?]
  cases t.cast v <;> simp

theorem ScalarType.Takes.exists_literals (h : t.Takes values) (field : Path) :
    ∃ bs, literals t field values = .ok bs := by
  have hstops : StopsAt (literals t field values) (values.findSome? t.castError?) :=
    stopsAt_literals_of_ne_nil h.1 t
  rwa [findSome?_castError?_eq_none_iff.2 h.2] at hstops

theorem LiteralFault.literals_eq (h : LiteralFault t field values err) :
    literals t field values = .error err := by
  cases h with
  | empty => rfl
  | cast h =>
    have hne : values ≠ [] := by
      rintro rfl
      cases h
    have hstops : StopsAt (literals t field values) (values.findSome? t.castError?) :=
      stopsAt_literals_of_ne_nil hne t
    rwa [h] at hstops

theorem exists_literalFault (field : Path) (h : ¬ t.Takes values) :
    ∃ err, LiteralFault t field values err := by
  by_cases hne : values = []
  · subst hne
    exact ⟨_, .empty⟩
  · cases hfirst : values.findSome? t.castError? with
    | none => exact absurd ⟨hne, findSome?_castError?_eq_none_iff.1 hfirst⟩ h
    | some cause => exact ⟨_, .cast hfirst⟩

end

/-! ### Chains of paths -/

theorem FieldRef.ofPath?_eq_none_iff {p : Path} : ofPath? p = none ↔ .any ∈ p := by
  induction p with
  | nil => simp [ofPath?]
  | cons s rest ih => cases s <;> simp [ofPath?, ih]

theorem fieldRef_of_not_mem {p : Path} (h : .any ∉ p) : ∃ ref, fieldRef p = .ok ref := by
  cases href : FieldRef.ofPath? p with
  | none => exact absurd (FieldRef.ofPath?_eq_none_iff.1 href) h
  | some ref => exact ⟨ref, by rw [fieldRef, href]⟩

theorem fieldRef_of_mem {p : Path} (h : .any ∈ p) : fieldRef p = .error (.unusablePath p) := by
  rw [fieldRef, FieldRef.ofPath?_eq_none_iff.2 h]

/-! ### Single queries -/

namespace Mapper

variable {m : Mapper} {e : Entity} {context : Cursor} {q : Query} {err : Error}

/-- The script of a membership in an array, when what is looked for has equality. -/
theorem script_memberOf {field array : Path} {op : Membership} {t : ScalarType}
    (ht : e.typeAt? field = some t) (heq : t.supportsEquality = true) :
    (Query.memberOf field op array).script e = do
      let _ ← e.root.resolve array
      let l ← fieldRef field
      let r ← fieldRef array
      return membershipScript op l r := by
  obtain ⟨c, hc, ht⟩ := Option.bind_eq_some_iff.1 ht
  rw [Query.script, Cursor.resolve_of_follow? hc, ok_bind, ht]
  simp only [Option.any_some, heq, if_true]

/-- A fault is the reason why a query has no native form. -/
theorem queryIn_of_fault (h : Fault e context q err) : m.queryIn e context q = .error err := by
  cases h with
  | compareUnknown h => rw [queryIn, nativeComparison, Cursor.resolve_of_follow?_eq_none h]; rfl
  | @compareUnsupported field op v c hc h =>
    rw [queryIn, nativeComparison, Cursor.resolve_of_follow? hc, ok_bind]
    cases ht : c.node.scalarType? with
    | none => rfl
    | some t =>
      have hop : (if op.isEquality then t.supportsEquality else t.supportsOrdering) = false :=
        h t ht
      simp only [hop]
      rfl
  | compareLiteral ht hop h =>
    obtain ⟨c, hc, ht⟩ := Option.bind_eq_some_iff.1 ht
    rw [queryIn, nativeComparison_eq_map hc ht hop, h]
    rfl
  | memberUnsupported h =>
    rw [queryIn, nativeMembership]
    refine Cursor.resolve_bind_eq_error fun c hc => ?_
    have hfilter : c.node.scalarType?.filter ScalarType.supportsEquality = none := by
      rw [Option.filter_eq_none_iff]
      intro t ht
      simp [h t (Option.bind_eq_some_iff.2 ⟨c, hc, ht⟩)]
    rw [hfilter]
    rfl
  | memberLiterals ht heq h =>
    obtain ⟨c, hc, ht⟩ := Option.bind_eq_some_iff.1 ht
    rw [queryIn, nativeMembership_eq_map hc ht heq, h.literals_eq]
    rfl
  | regexUnknown h => rw [queryIn, Cursor.resolve_of_follow?_eq_none h]; rfl
  | containsUnsupported h =>
    rw [queryIn]
    refine Cursor.resolve_bind_eq_error fun c hc => ?_
    have ht : c.node.scalarItems? = none := by
      rwa [Cursor.itemsAt?, hc] at h
    rw [ht]
    rfl
  | containsLiterals ht h =>
    obtain ⟨c, hc, ht⟩ := Option.bind_eq_some_iff.1 ht
    rw [queryIn_contains_eq_map hc ht, h.literals_eq]
    rfl
  | elemMatchUnsupported h =>
    rw [queryIn]
    refine Cursor.resolve_bind_eq_error fun c hc => ?_
    have hrows : (if c.node.isObjectArray then c.element? else none) = none := by
      rwa [Cursor.rowsAt?, hc] at h
    cases hnode : c.node.isObjectArray with
    | false => rfl
    | true =>
      rw [hnode, if_pos rfl] at hrows
      rw [hrows]
      rfl
  | compareFieldsNested h => rw [queryIn, h]; rfl
  | compareFieldsUnknown hroot h =>
    rw [queryIn, if_pos hroot, Query.script, Cursor.resolve_of_follow?_eq_none h]
    rfl
  | compareFieldsUnknownOther hroot hfield h =>
    rw [queryIn, if_pos hroot, Query.script, Cursor.resolve_of_follow? hfield,
      Cursor.resolve_of_follow?_eq_none h]
    rfl
  | memberOfNested h => rw [queryIn, h]; rfl
  | memberOfUnsupported hroot h =>
    rw [queryIn, if_pos hroot, Query.script, Cursor.resolve_bind_eq_error fun c hc => ?_]
    · rfl
    · have hany : c.node.scalarType?.any ScalarType.supportsEquality = false := by
        rw [Option.any_eq_false]
        intro t ht
        simp [h t (Option.bind_eq_some_iff.2 ⟨c, hc, ht⟩)]
      rw [hany]
      rfl
  | memberOfUnknownArray hroot ht heq h =>
    rw [queryIn, if_pos hroot, script_memberOf ht heq, Cursor.resolve_of_follow?_eq_none h]
    rfl
  | memberOfWildcard hroot ht heq harray h =>
    rw [queryIn, if_pos hroot, script_memberOf ht heq, Cursor.resolve_of_follow? harray, ok_bind,
      fieldRef_of_mem h]
    rfl
  | memberOfWildcardArray hroot ht heq harray hfield h =>
    obtain ⟨ref, href⟩ := fieldRef_of_not_mem hfield
    rw [queryIn, if_pos hroot, script_memberOf ht heq, Cursor.resolve_of_follow? harray, ok_bind,
      href, ok_bind, fieldRef_of_mem h]
    rfl

/-- A query has one fault only. -/
theorem fault_unique (m : Mapper) {err' : Error} (h : Fault e context q err)
    (h' : Fault e context q err') : err = err' := by
  have hresult : m.queryIn e context q = .error err := queryIn_of_fault h
  exact Except.error.inj (hresult.symm.trans (queryIn_of_fault h'))

theorem firstFault_unique (m : Mapper) {ss : List Occurrence} {err' : Error}
    (h : FirstFault e ss err) (h' : FirstFault e ss err') : err = err' := by
  have hone : ∀ (s : Occurrence) (b b' : Error), s.Fault e b → s.Fault e b' → b = b' :=
    fun s b b' hb hb' => fault_unique m hb hb'
  exact (FirstFault.iff_firstOf.1 h).unique hone (FirstFault.iff_firstOf.1 h')

/-- What has a native form has no fault. -/
theorem not_fault_of_queryIn {r : Record} (h : m.queryIn e context q = .ok r) (err : Error) :
    ¬ Fault e context q err := by
  intro hfault
  rw [queryIn_of_fault hfault] at h
  cases h

theorem exists_ok_of_wellTyped (hq : q.IsSimple) (h : q.WellTyped e context) :
    ∃ r, m.queryIn e context q = .ok r := by
  cases q with
  | compare field op v =>
    rw [Query.WellTyped] at h
    obtain ⟨t, ht, hop, canonical, hcast⟩ := h
    obtain ⟨c, hc, ht⟩ := Option.bind_eq_some_iff.1 ht
    rw [queryIn, nativeComparison_eq_map hc ht hop, hcast]
    exact ⟨_, rfl⟩
  | member field op values =>
    rw [Query.WellTyped] at h
    obtain ⟨t, ht, heq, htakes⟩ := h
    obtain ⟨c, hc, ht⟩ := Option.bind_eq_some_iff.1 ht
    obtain ⟨bs, hbs⟩ := htakes.exists_literals field
    rw [queryIn, nativeMembership_eq_map hc ht heq, hbs]
    exact ⟨_, rfl⟩
  | regex field pattern flags =>
    rw [Query.WellTyped] at h
    obtain ⟨c, hc⟩ := h
    rw [queryIn, Cursor.resolve_of_follow? hc]
    exact ⟨_, rfl⟩
  | contains array op values =>
    rw [Query.WellTyped] at h
    obtain ⟨t, ht, htakes⟩ := h
    obtain ⟨c, hc, ht⟩ := Option.bind_eq_some_iff.1 ht
    obtain ⟨bs, hbs⟩ := htakes.exists_literals array
    rw [queryIn_contains_eq_map hc ht, hbs]
    exact ⟨_, rfl⟩
  | compareFields field op other =>
    rw [Query.WellTyped] at h
    obtain ⟨hroot, ⟨l, hl⟩, r, hr⟩ := h
    rw [queryIn, if_pos hroot, Query.script, Cursor.resolve_of_follow? hl,
      Cursor.resolve_of_follow? hr]
    exact ⟨_, rfl⟩
  | memberOf field op array =>
    rw [Query.WellTyped] at h
    obtain ⟨hroot, ⟨t, ht, heq⟩, ⟨c, hc⟩, hfield, harray⟩ := h
    obtain ⟨l, hl⟩ := fieldRef_of_not_mem hfield
    obtain ⟨r, hr⟩ := fieldRef_of_not_mem harray
    rw [queryIn, if_pos hroot, script_memberOf ht heq, Cursor.resolve_of_follow? hc, ok_bind, hl,
      hr]
    exact ⟨_, rfl⟩
  | _ => exact hq.elim

theorem exists_fault_of_not_wellTyped (hq : q.IsSimple) (h : ¬ q.WellTyped e context) :
    ∃ err, Fault e context q err := by
  cases q with
  | compare field op v =>
    rw [Query.WellTyped] at h
    cases hc : context.follow? field with
    | none => exact ⟨_, .compareUnknown hc⟩
    | some c =>
      by_cases hop : ∀ t, c.node.scalarType? = some t → op.supportedBy t = false
      · exact ⟨_, .compareUnsupported hc hop⟩
      · push Not at hop
        obtain ⟨t, ht, hop⟩ := hop
        have ht : context.typeAt? field = some t := Option.bind_eq_some_iff.2 ⟨c, hc, ht⟩
        have hop : op.supportedBy t = true := by simpa using hop
        cases hcast : t.cast v with
        | error cause => exact ⟨_, .compareLiteral ht hop hcast⟩
        | ok canonical => exact absurd ⟨t, ht, hop, canonical, hcast⟩ h
  | member field op values =>
    rw [Query.WellTyped] at h
    by_cases heq : ∀ t, context.typeAt? field = some t → t.supportsEquality = false
    · exact ⟨_, .memberUnsupported heq⟩
    · push Not at heq
      obtain ⟨t, ht, heq⟩ := heq
      have heq : t.supportsEquality = true := by simpa using heq
      obtain ⟨err, herr⟩ := exists_literalFault field fun htakes =>
        h ⟨t, ht, heq, htakes⟩
      exact ⟨err, .memberLiterals ht heq herr⟩
  | regex field pattern flags =>
    rw [Query.WellTyped] at h
    cases hc : context.follow? field with
    | none => exact ⟨_, .regexUnknown hc⟩
    | some c => exact absurd ⟨c, hc⟩ h
  | contains array op values =>
    rw [Query.WellTyped] at h
    cases ht : context.itemsAt? array with
    | none => exact ⟨_, .containsUnsupported ht⟩
    | some t =>
      obtain ⟨err, herr⟩ := exists_literalFault array fun htakes => h ⟨t, ht, htakes⟩
      exact ⟨err, .containsLiterals ht herr⟩
  | compareFields field op other =>
    rw [Query.WellTyped] at h
    cases hroot : context.isRoot with
    | false => exact ⟨_, .compareFieldsNested hroot⟩
    | true =>
      cases hl : e.resolve? field with
      | none => exact ⟨_, .compareFieldsUnknown hroot hl⟩
      | some l =>
        cases hr : e.resolve? other with
        | none => exact ⟨_, .compareFieldsUnknownOther hroot hl hr⟩
        | some r => exact absurd ⟨hroot, ⟨l, hl⟩, r, hr⟩ h
  | memberOf field op array =>
    rw [Query.WellTyped] at h
    cases hroot : context.isRoot with
    | false => exact ⟨_, .memberOfNested hroot⟩
    | true =>
      by_cases heq : ∀ t, e.typeAt? field = some t → t.supportsEquality = false
      · exact ⟨_, .memberOfUnsupported hroot heq⟩
      push Not at heq
      obtain ⟨t, ht, heq⟩ := heq
      have heq : t.supportsEquality = true := by simpa using heq
      cases hc : e.resolve? array with
      | none => exact ⟨_, .memberOfUnknownArray hroot ht heq hc⟩
      | some c =>
        by_cases hfield : .any ∈ field
        · exact ⟨_, .memberOfWildcard hroot ht heq hc hfield⟩
        by_cases harray : .any ∈ array
        · exact ⟨_, .memberOfWildcardArray hroot ht heq hc hfield harray⟩
        exact absurd ⟨hroot, ⟨t, ht, heq⟩, ⟨c, hc⟩, hfield, harray⟩ h
  | _ => exact hq.elim

end Mapper

/-! ### Whole queries -/

/-- Either queries are typed, have native forms, and nothing is wrong with any of them, or they are
not typed and refused for the first fault. -/
inductive Verdict {α : Type} (e : Entity) (result : Except Error α) (typed : Prop)
    (ss : List Occurrence) : Prop where
  | accepted (htyped : typed) (hresult : ∃ a, result = .ok a)
      (hss : ∀ s ∈ ss, ∀ err, ¬ s.Fault e err)
  | refused (err : Error) (htyped : ¬ typed) (hresult : result = .error err)
      (hss : FirstFault e ss err)

namespace Verdict

variable {α β : Type} {e : Entity} {x : Except Error α} {typed typed' : Prop}
  {ss ss' : List Occurrence}

/-- The verdict on a query with nothing wrong itself is the one on what is inside it. -/
theorem cons {s : Occurrence} {f : α → Except Error β} (hs : ∀ err, ¬ s.Fault e err)
    (h : Verdict e x typed ss) (hf : ∀ a, ∃ b, f a = .ok b) :
    Verdict e (x >>= f) typed (s :: ss) := by
  cases h with
  | accepted htyped hresult hss =>
    obtain ⟨a, rfl⟩ := hresult
    exact .accepted htyped (hf a) (List.forall_mem_cons.2 ⟨hs, hss⟩)
  | refused err htyped hresult hss =>
    refine .refused err htyped ?_ (.later hs hss)
    rw [hresult]
    rfl

/-- The verdict on a query and the ones after it. -/
theorem append {y : Except Error β} {γ : Type} {f : α → β → γ} (h : Verdict e x typed ss)
    (h' : Verdict e y typed' ss') :
    Verdict e (do return f (← x) (← y)) (typed ∧ typed') (ss ++ ss') := by
  cases h with
  | refused err htyped hresult hss =>
    refine .refused err (fun hboth => htyped hboth.1) ?_ hss.append_left
    rw [hresult]
    rfl
  | accepted htyped hresult hss =>
    obtain ⟨a, rfl⟩ := hresult
    cases h' with
    | refused err htyped' hresult' hss' =>
      refine .refused err (fun hboth => htyped' hboth.2) ?_ (hss'.append_right hss)
      rw [hresult']
      rfl
    | accepted htyped' hresult' hss' =>
      obtain ⟨b, rfl⟩ := hresult'
      exact .accepted ⟨htyped, htyped'⟩ ⟨_, rfl⟩ (List.forall_mem_append.2 ⟨hss, hss'⟩)

end Verdict

namespace Mapper

variable (m : Mapper) (e : Entity)

theorem verdict_of_isSimple (q : Query) (hq : q.IsSimple) (context : Cursor) :
    Verdict e (m.queryIn e context q) (q.WellTyped e context) (q.occurrences context) := by
  rw [Query.occurrences_of_isSimple hq]
  by_cases htyped : q.WellTyped e context
  · obtain ⟨r, hr⟩ := exists_ok_of_wellTyped hq htyped
    exact .accepted htyped ⟨r, hr⟩ (List.forall_mem_singleton.2 (not_fault_of_queryIn hr))
  · obtain ⟨err, herr⟩ := exists_fault_of_not_wellTyped hq htyped
    exact .refused err htyped (queryIn_of_fault herr) (.here herr)

mutual

theorem verdict_queryIn : ∀ (q : Query) (context : Cursor),
    Verdict e (m.queryIn e context q) (q.WellTyped e context) (q.occurrences context)
  | .combine op queries, context => by
    rw [queryIn, Query.WellTyped, Query.occurrences]
    exact (verdict_queriesIn queries context).cons (by rintro err ⟨⟩) fun bs => ⟨_, rfl⟩
  | .negate query, context => by
    rw [queryIn, Query.WellTyped, Query.occurrences]
    exact (verdict_queryIn query context).cons (by rintro err ⟨⟩) fun r => ⟨_, rfl⟩
  | .elemMatch array query, context => by
    cases hrows : context.rowsAt? array with
    | none =>
      have hfault : Fault e context (.elemMatch array query) (.invalidField array) :=
        .elemMatchUnsupported hrows
      rw [Query.WellTyped, Query.occurrences, hrows]
      exact .refused _ (fun ⟨_, helement, _⟩ => nomatch helement) (queryIn_of_fault hfault)
        (.here hfault)
    | some element =>
      obtain ⟨c, hc, helement⟩ := Option.bind_eq_some_iff.1 hrows
      obtain ⟨hnode, helement⟩ := Option.ite_none_right_eq_some.1 helement
      have hself : ∀ err, ¬ Occurrence.Fault e ⟨context, .elemMatch array query⟩ err := by
        rintro err ⟨⟩
        cases hrows.symm.trans ‹_›
      rw [queryIn, Query.WellTyped, Query.occurrences, hrows, Cursor.resolve_of_follow? hc, ok_bind]
      simp only [hnode, helement, Option.some.injEq, exists_eq_left']
      exact (verdict_queryIn query element).cons hself fun inner => ⟨_, rfl⟩
  | .compare field op v, context =>
    verdict_of_isSimple m e (.compare field op v) trivial context
  | .compareFields field op other, context =>
    verdict_of_isSimple m e (.compareFields field op other) trivial context
  | .member field op values, context =>
    verdict_of_isSimple m e (.member field op values) trivial context
  | .memberOf field op array, context =>
    verdict_of_isSimple m e (.memberOf field op array) trivial context
  | .regex field pattern flags, context =>
    verdict_of_isSimple m e (.regex field pattern flags) trivial context
  | .contains array op values, context =>
    verdict_of_isSimple m e (.contains array op values) trivial context

theorem verdict_queriesIn : ∀ (queries : List Query) (context : Cursor),
    Verdict e (m.queriesIn e context queries) (Query.AllWellTyped e context queries)
      (Query.occurrencesOfAll context queries)
  | [], context => by
    rw [queriesIn, Query.AllWellTyped, Query.occurrencesOfAll]
    exact .accepted trivial ⟨[], rfl⟩ nofun
  | query :: rest, context => by
    rw [queriesIn, Query.AllWellTyped, Query.occurrencesOfAll]
    exact (verdict_queryIn query context).append (verdict_queriesIn rest context)

end

/-- Exactly the well-typed queries have a native form. The others are refused for the first fault,
where a query goes before the ones inside it. -/
theorem nativeQuery_typing (q : Query) :
    ((∃ r, m.nativeQuery e q = .ok r) ↔ q.WellTyped e e.root) ∧
      ∀ err, m.nativeQuery e q = .error err ↔ FirstFault e (q.occurrences e.root) err := by
  rw [nativeQuery]
  cases verdict_queryIn m e q e.root with
  | accepted htyped hresult hss =>
    refine ⟨iff_of_true hresult htyped, fun err => ?_⟩
    obtain ⟨r, hr⟩ := hresult
    rw [hr]
    refine iff_of_false (fun herr => by cases herr) fun hfirst => ?_
    obtain ⟨s, hmem, hs⟩ := hfirst.exists_mem
    exact hss s hmem err hs
  | refused err htyped hresult hss =>
    rw [hresult]
    have hfails : ¬ ∃ r, (Except.error err : Except Error Record) = .ok r := by
      rintro ⟨r, ⟨⟩⟩
    refine ⟨iff_of_false hfails htyped, fun err' => ?_⟩
    constructor
    · intro herr
      obtain rfl := Except.error.inj herr
      exact hss
    · intro hfirst
      rw [firstFault_unique m hss hfirst]

end Mapper

end Docstore
