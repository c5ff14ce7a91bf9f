import Docstore.Proofs.Entity.FieldKeys
import Docstore.Proofs.Query.Parts

/-!
# The grammar of native queries

What the store takes as a query, and when the native form of a query is one.

* `IsNativeQuery`, `IsCondition` : the documents that the store takes as queries, and the values
  that it takes as conditions on a field;
* `isNativeQuery_field_iff`, `isNativeQuery_combine_iff`, `isCondition_elemMatch_iff` : the grammar
  read backwards;
* `Query.KeepsGrammar` : a query that does not leave the grammar by itself, apart from its
  subqueries;
* `Mapper.isNativeQuery_iff` : the native form is in the grammar exactly when no subquery is an
  empty combination, a containment of none, or a containment of any with operators for a literal
  that make no condition.

The native form of a containment of none has the operator in front that negates conditions, where
only the one that negates queries may stand (`negationOperator`).
-/

namespace Docstore

/-- The store takes the value for operators and not for a literal. -/
def Bson.readsAsOperators : Bson → Bool
  | .document ((name, _) :: _) => isOperatorName name
  | _ => false

mutual

/-- The value is a condition that a field can be under. -/
inductive IsCondition : Bson → Prop
  /-- The field equals a literal. -/
  | literal {b : Bson} (h : b.readsAsOperators = false) : IsCondition b
  | compare {b : Bson} (op : Comparison) (h : b.readsAsOperators = false) :
      IsCondition (.document [(op.native, b)])
  | member {name : String} {values : List Bson} (hname : name ∈ ["$in", "$nin", "$all"])
      (hne : values ≠ []) : IsCondition (.document [(name, .array values)])
  | regex (pattern : String) : IsCondition (.document [("$regex", .string pattern)])
  | regexOptions (pattern options : String) :
      IsCondition (.document [("$regex", .string pattern), ("$options", .string options)])
  /-- Some element satisfies a query that has no script. -/
  | elemMatch {r : Record} (h : IsNativeQuery false r) :
      IsCondition (.document [("$elemMatch", .document r)])

/-- The document is a query; there are scripts in it only if `scripts` allows them. -/
inductive IsNativeQuery : Bool → Record → Prop
  | field {scripts : Bool} {key : String} {b : Bson} (hkey : IsFieldKey key) (h : IsCondition b) :
      IsNativeQuery scripts [(key, b)]
  | combine {scripts : Bool} {name : String} {rs : List Record}
      (hname : name ∈ ["$and", "$or", "$nor"]) (hne : rs ≠ [])
      (h : ∀ r ∈ rs, IsNativeQuery scripts r) :
      IsNativeQuery scripts [(name, .array (rs.map .document))]
  | script (text : String) : IsNativeQuery true [("$where", .string text)]

end

/-! ### The grammar read backwards -/

section

variable {scripts : Bool} {key name : String} {b : Bson} {r : Record}

theorem Bson.readsAsOperators_eq_false (h : ∀ fields, b ≠ .document fields) :
    b.readsAsOperators = false := by
  cases b with
  | document fields => exact absurd rfl (h fields)
  | _ => rfl

theorem IsFieldKey.ne_of_operator (hkey : IsFieldKey key) (hname : isOperatorName name = true) :
    key ≠ name := by
  rintro rfl
  rw [hkey.not_operator] at hname
  cases hname

theorem isOperatorName_of_mem : ∀ name ∈ ["$and", "$or", "$nor"], isOperatorName name = true := by
  decide

/-- Under the key of a field stands a condition. -/
theorem isNativeQuery_field_iff (hkey : IsFieldKey key) :
    IsNativeQuery scripts [(key, b)] ↔ IsCondition b := by
  refine ⟨fun h => ?_, .field hkey⟩
  cases h with
  | field _ h => exact h
  | combine hname _ _ => exact absurd rfl (hkey.ne_of_operator (isOperatorName_of_mem _ hname))
  | script text => exact absurd rfl (hkey.ne_of_operator rfl)

/-- Under an operator over lists stand queries, at least one. -/
theorem isNativeQuery_combine_iff (hname : name ∈ ["$and", "$or", "$nor"]) (rs : List Record) :
    IsNativeQuery scripts [(name, .array (rs.map .document))] ↔
      rs ≠ [] ∧ ∀ r ∈ rs, IsNativeQuery scripts r := by
  refine ⟨fun h => ?_, fun ⟨hne, h⟩ => .combine hname hne h⟩
  generalize hr : [(name, Bson.array (rs.map .document))] = r at h
  cases h with
  | field hkey _ =>
    obtain ⟨rfl, -⟩ := Prod.mk.inj (List.cons.inj hr).1
    exact absurd rfl (hkey.ne_of_operator (isOperatorName_of_mem _ hname))
  | combine _ hne h =>
    obtain ⟨rfl, hlist⟩ := Prod.mk.inj (List.cons.inj hr).1
    have hinjective : Function.Injective Bson.document := fun _ _ => Bson.document.inj
    obtain rfl := List.map_injective_iff.2 hinjective (Bson.array.inj hlist)
    exact ⟨hne, h⟩
  | script text => simp at hr

/-- The operator of element matches stands before a query without scripts. -/
theorem isCondition_elemMatch_iff :
    IsCondition (.document [("$elemMatch", .document r)]) ↔ IsNativeQuery false r := by
  refine ⟨fun h => ?_, .elemMatch⟩
  generalize hb : Bson.document [("$elemMatch", .document r)] = b at h
  cases h with
  | literal h =>
    subst hb
    cases h
  | compare op h => cases op <;> simp [Comparison.native] at hb
  | elemMatch h =>
    cases hb
    exact h
  | _ => simp at hb

/-- The operator that negates conditions does not stand before a query. -/
theorem not_isNativeQuery_not (b : Bson) : ¬ IsNativeQuery scripts [("$not", b)] := by
  intro h
  generalize hr : [("$not", b)] = r at h
  cases h with
  | field hkey _ =>
    obtain ⟨rfl, -⟩ := Prod.mk.inj (List.cons.inj hr).1
    cases hkey.not_operator
  | combine hname _ _ =>
    obtain ⟨rfl, -⟩ := Prod.mk.inj (List.cons.inj hr).1
    simp at hname
  | script text => simp at hr

/-- Whether the stored form of a free-form literal is a condition is told by the literal as it is.
In fields of other types it always is one. -/
theorem isCondition_stored_iff {t : ScalarType} {v : Json} {c : Canonical} (h : t.cast v = .ok c) :
    IsCondition c.stored ↔ ∀ b, Bson.ofJson v = .ok b → IsCondition b := by
  by_cases hdocument : ∃ fields, c.stored = .document fields
  · obtain ⟨fields, hfields⟩ := hdocument
    have hjson := (ScalarType.stored_eq_document_iff h).1 hfields
    rw [hfields]
    refine ⟨fun hcondition b hb => ?_, fun hcondition => hcondition _ hjson⟩
    obtain rfl := Except.ok.inj (hjson.symm.trans hb)
    exact hcondition
  · have hjson : ∀ fields, Bson.ofJson v ≠ .ok (.document fields) := fun fields hfields =>
      hdocument ⟨fields, (ScalarType.stored_eq_document_iff h).2 hfields⟩
    refine iff_of_true (.literal ?_) fun b hb => .literal ?_
    · exact Bson.readsAsOperators_eq_false fun fields hfields => hdocument ⟨fields, hfields⟩
    · refine Bson.readsAsOperators_eq_false fun fields hfields => hjson fields ?_
      rw [hb, hfields]

end

/-! ### Where the paths of a query start -/

namespace Entity

variable {e : Entity} {scripts : Bool} {base p : Path} {context c : Cursor}

/-- A place where the paths of a query start: no array, and the document itself only where scripts
are allowed. -/
structure Hosts (e : Entity) (scripts : Bool) (base : Path) (context : Cursor) : Prop extends
    e.Stands base context where
  isArray_eq_false : context.node.isArray = false
  scripts_eq_true : context.isRoot = true → scripts = true

theorem hosts_root (e : Entity) : e.Hosts true .root e.root where
  toStands := e.stands_root
  isArray_eq_false := rfl
  scripts_eq_true := fun _ => rfl

theorem Hosts.element (h : e.Hosts scripts base context) (hc : context.follow? p = some c)
    {element : Cursor} (helement : c.element? = some element) :
    e.Hosts false ((base.join p).child .any) element where
  toStands := h.toStands.element hc helement
  isArray_eq_false := by
    obtain ⟨node, hnode, rfl⟩ := Option.map_eq_some_iff.1 helement
    obtain ⟨parent, trail⟩ := c
    rcases parent with (_ | _ | _ | _ | _) | _ | _ <;> cases hnode <;> rfl
  scripts_eq_true hroot := by
    rw [isRoot_eq_false (h.toStands.element hc helement).resolve?_eq] at hroot
    cases hroot

theorem Hosts.isFieldKey (h : e.Hosts scripts base context) (he : e.HasFieldNames)
    (hc : ∃ c, context.follow? p = some c) (hp : p ≠ []) : IsFieldKey p.storageText := by
  obtain ⟨c, hc⟩ := hc
  exact isFieldKey_storageText he h.resolve?_eq h.isArray_eq_false hc hp

end Entity

/-! ### Native forms -/

namespace Query

/-- The paths that the query itself is about, apart from its subqueries. -/
def ownPaths : Query → List Path
  | .compare field _ _ => [field]
  | .compareFields field _ other => [field, other]
  | .member field _ _ => [field]
  | .memberOf field _ array => [field, array]
  | .regex field _ _ => [field]
  | .contains array _ _ => [array]
  | .elemMatch array _ => [array]
  | _ => []

/-- The query itself does not leave the grammar, whatever its subqueries do. -/
def KeepsGrammar : Query → Prop
  | .combine _ queries => queries ≠ []
  | .contains _ .any values => ∀ v ∈ values, ∀ b, Bson.ofJson v = .ok b → IsCondition b
  | .contains _ .none _ => False
  | _ => True

end Query

namespace Mapper

variable {m : Mapper} {e : Entity}

/-- The containment of any literal is a query when every literal is a condition, and that of none
never is. -/
theorem isNativeQuery_nativeContains_iff {scripts : Bool} {t : ScalarType} {array : Path}
    {op : Containment} {values : List Json} {bs : List Bson}
    (hkey : IsFieldKey array.storageText) (hne : bs ≠ [])
    (hbs : List.Forall₂ (fun v b => ∃ c, t.cast v = .ok c ∧ b = c.stored) values bs) :
    IsNativeQuery scripts (nativeContains array.storageText op bs) ↔
      (Query.contains array op values).KeepsGrammar := by
  cases op with
  | all => exact iff_of_true (.field hkey (.member (by decide) hne)) trivial
  | any =>
    have hlist : containsAny array.storageText bs =
        [("$or", .array ((bs.map fun b => [(array.storageText, b)]).map .document))] := by
      rw [containsAny, List.map_map]
      rfl
    have hcondition : (∀ v ∈ values, ∀ b, Bson.ofJson v = .ok b → IsCondition b) ↔
        ∀ b ∈ bs, IsCondition b := by
      refine forall_mem_iff_of_forall₂ (hbs.imp fun v b hb => ?_)
      obtain ⟨c, hcast, rfl⟩ := hb
      exact (isCondition_stored_iff hcast).symm
    rw [nativeContains, hlist, isNativeQuery_combine_iff (by decide), List.forall_mem_map,
      Query.KeepsGrammar, hcondition, and_iff_right (by simpa using hne)]
    exact forall₂_congr fun b _ => isNativeQuery_field_iff hkey
  | none => exact iff_of_false (not_isNativeQuery_not _) id

mutual

/-- The native form of a query is in the grammar exactly when no subquery leaves it. -/
theorem isNativeQuery_queryIn_iff (he : e.HasFieldNames) : ∀ {q : Query} {scripts : Bool}
    {base : Path} {context : Cursor} {r : Record}, e.Hosts scripts base context →
      (∀ s ∈ q.subqueries, ∀ p ∈ s.ownPaths, p ≠ []) → m.queryIn e context q = .ok r →
        (IsNativeQuery scripts r ↔ ∀ s ∈ q.subqueries, s.KeepsGrammar)
  | .compare field op value, scripts, base, context, r, hhost, hpaths, h => by
    rw [queryIn] at h
    obtain ⟨hc, t, c, ht, hcast, rfl⟩ := exists_cast_of_nativeComparison h
    have hkey := hhost.isFieldKey he hc (hpaths _ List.mem_cons_self _ List.mem_cons_self)
    have hliteral : (m.identify context field c.stored).readsAsOperators = false :=
      Bson.readsAsOperators_eq_false (identify_ne_document fun fields hfields =>
        ht (ScalarType.eq_any_of_stored_eq_document hcast hfields))
    refine iff_of_true ?_ (List.forall_mem_singleton.2 trivial)
    split
    · exact .field hkey (.literal hliteral)
    · exact .field hkey (.compare op hliteral)
  | .member field op values, scripts, base, context, r, hhost, hpaths, h => by
    rw [queryIn] at h
    obtain ⟨c, t, hc, -, heq⟩ := nativeMembership_of_eq_ok h
    rw [heq values] at h
    obtain ⟨bs, hbs, rfl⟩ := map_eq_ok_iff.1 h
    have hkey := hhost.isFieldKey he ⟨c, hc⟩ (hpaths _ List.mem_cons_self _ List.mem_cons_self)
    have hne : bs.map (m.identify context field) ≠ [] :=
      mt List.map_eq_nil_iff.1 (ne_nil_of_literals hbs)
    have hname : op.native ∈ ["$in", "$nin", "$all"] := by cases op <;> decide
    exact iff_of_true (.field hkey (.member hname hne)) (List.forall_mem_singleton.2 trivial)
  | .contains array op values, scripts, base, context, r, hhost, hpaths, h => by
    obtain ⟨hc, t, bs, hbs, hne, rfl⟩ := exists_literals_of_queryIn_contains h
    have hkey := hhost.isFieldKey he hc (hpaths _ List.mem_cons_self _ List.mem_cons_self)
    exact (isNativeQuery_nativeContains_iff hkey hne hbs).trans List.forall_mem_singleton.symm
  | .regex field pattern flags, scripts, base, context, r, hhost, hpaths, h => by
    rw [queryIn] at h
    obtain ⟨c, hc, h⟩ := bind_eq_ok_iff.1 h
    obtain rfl := pure_eq_ok_iff.1 h
    have hkey := hhost.isFieldKey he ⟨c, Cursor.follow?_of_resolve hc⟩
      (hpaths _ List.mem_cons_self _ List.mem_cons_self)
    refine iff_of_true ?_ (List.forall_mem_singleton.2 trivial)
    rw [nativeRegex]
    split
    · exact .field hkey (.regex pattern)
    · exact .field hkey (.regexOptions pattern _)
  | .elemMatch array query, scripts, base, context, r, hhost, hpaths, h => by
    obtain ⟨c, element, hc, helement, heq⟩ := queryIn_elemMatch_of_eq_ok h
    rw [heq query] at h
    obtain ⟨inner, hinner, rfl⟩ := map_eq_ok_iff.1 h
    rw [Query.subqueries, List.forall_mem_cons] at hpaths ⊢
    have hkey := hhost.isFieldKey he ⟨c, hc⟩ (hpaths.1 _ List.mem_cons_self)
    -- The context is an element, so the inner query has no scripts, whatever is allowed outside.
    rw [underOperator, isNativeQuery_field_iff hkey, isCondition_elemMatch_iff,
      isNativeQuery_queryIn_iff he (hhost.element hc helement) hpaths.2 hinner]
    exact (and_iff_right trivial).symm
  | .negate query, scripts, base, context, r, hhost, hpaths, h => by
    rw [queryIn] at h
    obtain ⟨inner, hinner, h⟩ := bind_eq_ok_iff.1 h
    obtain rfl := pure_eq_ok_iff.1 h
    rw [Query.subqueries, List.forall_mem_cons] at hpaths ⊢
    have hname : negationOperator ∈ ["$and", "$or", "$nor"] := by decide
    have hlist : IsNativeQuery scripts [(negationOperator, .array [.document inner])] ↔
        [inner] ≠ [] ∧ ∀ r ∈ [inner], IsNativeQuery scripts r :=
      isNativeQuery_combine_iff hname [inner]
    rw [hlist, List.forall_mem_singleton, isNativeQuery_queryIn_iff he hhost hpaths.2 hinner]
    exact and_congr_left' (iff_of_true (List.cons_ne_nil _ _) trivial)
  | .combine op queries, scripts, base, context, r, hhost, hpaths, h => by
    rw [queryIn] at h
    obtain ⟨bs, hbs, h⟩ := bind_eq_ok_iff.1 h
    obtain rfl := pure_eq_ok_iff.1 h
    rw [Query.subqueries, List.forall_mem_cons] at hpaths ⊢
    obtain ⟨rs, rfl, hempty, hall⟩ := exists_isNativeQuery_queriesIn_iff he hhost hpaths.2 hbs
    have hname : op.native ∈ ["$and", "$or", "$nor"] := by cases op <;> decide
    rw [isNativeQuery_combine_iff hname, hall, Query.KeepsGrammar, ne_eq, hempty]
  | .compareFields _ _ _, scripts, base, context, r, hhost, hpaths, h => by
    rw [queryIn] at h
    obtain ⟨hroot, s, -, rfl⟩ := exists_script_of_eq_ok h
    obtain rfl := hhost.scripts_eq_true hroot
    exact iff_of_true (.script _) (List.forall_mem_singleton.2 trivial)
  | .memberOf _ _ _, scripts, base, context, r, hhost, hpaths, h => by
    rw [queryIn] at h
    obtain ⟨hroot, s, -, rfl⟩ := exists_script_of_eq_ok h
    obtain rfl := hhost.scripts_eq_true hroot
    exact iff_of_true (.script _) (List.forall_mem_singleton.2 trivial)

theorem exists_isNativeQuery_queriesIn_iff (he : e.HasFieldNames) : ∀ {queries : List Query}
    {scripts : Bool} {base : Path} {context : Cursor} {bs : List Bson},
      e.Hosts scripts base context →
      (∀ s ∈ Query.subqueriesOfAll queries, ∀ p ∈ s.ownPaths, p ≠ []) →
        m.queriesIn e context queries = .ok bs →
          ∃ rs : List Record, bs = rs.map .document ∧ (rs = [] ↔ queries = []) ∧
            ((∀ r ∈ rs, IsNativeQuery scripts r) ↔
              ∀ s ∈ Query.subqueriesOfAll queries, s.KeepsGrammar)
  | [], scripts, base, context, bs, hhost, hpaths, h => by
    rw [queriesIn] at h
    obtain rfl := Except.ok.inj h
    exact ⟨[], rfl, iff_of_true rfl rfl,
      iff_of_true (List.forall_mem_nil _) (List.forall_mem_nil _)⟩
  | query :: rest, scripts, base, context, bs, hhost, hpaths, h => by
    rw [queriesIn] at h
    obtain ⟨r, hr, h⟩ := bind_eq_ok_iff.1 h
    obtain ⟨more, hmore, h⟩ := bind_eq_ok_iff.1 h
    obtain rfl := pure_eq_ok_iff.1 h
    rw [Query.subqueriesOfAll, List.forall_mem_append] at hpaths ⊢
    obtain ⟨rs, rfl, -, hall⟩ := exists_isNativeQuery_queriesIn_iff he hhost hpaths.2 hmore
    refine ⟨r :: rs, rfl, iff_of_false (List.cons_ne_nil _ _) (List.cons_ne_nil _ _), ?_⟩
    rw [List.forall_mem_cons, isNativeQuery_queryIn_iff he hhost hpaths.1 hr, hall]

end

/-- The native form of a query whose paths are not the root, on an entity of field names, is in the
grammar exactly when no subquery leaves it: no combination is empty, no containment test is one of
none, and one of any has no operators for a literal unless they make a condition. -/
theorem isNativeQuery_iff (m : Mapper) {e : Entity} {q : Query} {r : Record}
    (he : e.HasFieldNames) (hpaths : ∀ s ∈ q.subqueries, ∀ p ∈ s.ownPaths, p ≠ [])
    (h : m.nativeQuery e q = .ok r) :
    IsNativeQuery true r ↔ ∀ s ∈ q.subqueries, s.KeepsGrammar :=
  isNativeQuery_queryIn_iff he e.hosts_root hpaths h

/-- Negated containment, an element match and alternatives, all in one conjunction. -/
theorem isNativeQuery_iff_tags :
    let m : Mapper := { entities := [] }
    let e : Entity := ⟨"table", [("tags", .scalarArray .string),
      ("rows", .objectArray [("open", .scalar .boolean)])]⟩
    let q : Query := .combine .and [.negate (.contains [.name "tags"] .all [.string "x"]),
      .elemMatch [.name "rows"] (.compare [.name "open"] .eq (.bool true)),
      .contains [.name "tags"] .any [.string "x", .string "y"]]
    e.HasFieldNames ∧ (∀ s ∈ q.subqueries, ∀ p ∈ s.ownPaths, p ≠ []) ∧
      ∃ r, m.nativeQuery e q = .ok r ∧ IsNativeQuery true r := by
  intro m e q
  have he : e.HasFieldNames := by
    have hnames : ∀ name ∈ ["tags", "rows", "open"], IsFieldName name := by
      intro name hname
      simp only [List.mem_cons, List.not_mem_nil, or_false] at hname
      rcases hname with rfl | rfl | rfl <;> exact ⟨by decide, by decide, by decide⟩
    intro c hc name hname
    refine hnames name ?_
    simp only [e, Entity.fields, Field.descendants, Members.descendants, List.mem_cons,
      List.mem_append, List.not_mem_nil, or_false] at hc
    rcases hc with rfl | rfl | rfl | rfl | rfl <;> simp [Cursor.path] at hname <;> simp [hname]
  have hpaths : ∀ s ∈ q.subqueries, ∀ p ∈ s.ownPaths, p ≠ [] := by
    simp [q, Query.subqueries, Query.subqueriesOfAll, Query.ownPaths]
  have hkeeps : ∀ s ∈ q.subqueries, s.KeepsGrammar := by
    have hliterals : ∀ v ∈ [Json.string "x", .string "y"], ∀ b, Bson.ofJson v = .ok b →
        IsCondition b := by
      intro v hv b hb
      rcases List.mem_pair.1 hv with rfl | rfl <;> obtain rfl := Except.ok.inj hb <;>
        exact .literal rfl
    simpa [q, Query.subqueries, Query.subqueriesOfAll, Query.KeepsGrammar] using hliterals
  have hquery : m.nativeQuery e q = .ok [("$and", .array [
      .document [("$nor", .array [.document [("tags", .document [("$all",
        .array [.string "x"])])]])],
      .document [("rows", .document [("$elemMatch", .document [("open", .bool true)])])],
      .document [("$or", .array [.document [("tags", .string "x")],
        .document [("tags", .string "y")]])]])] := by
    simp only [nativeQuery, q, queryIn, queriesIn]
    rfl
  exact ⟨he, hpaths, _, hquery, (isNativeQuery_iff m he hpaths hquery).2 hkeeps⟩

/-- A containment test of none has the operator in front that negates conditions, and an empty
combination an empty list. The store takes neither for a query. -/
theorem not_isNativeQuery_none :
    let m : Mapper := { entities := [] }
    let e : Entity := ⟨"user", [("tags", .scalarArray .string)]⟩
    let none : Record := [("$not", .document [("$or", .array [.document [("tags",
      .string "x")]])])]
    let empty : Record := [("$and", .array [])]
    m.nativeQuery e (.contains [.name "tags"] .none [.string "x"]) = .ok none ∧
      ¬ IsNativeQuery true none ∧
      m.nativeQuery e (.combine .and []) = .ok empty ∧ ¬ IsNativeQuery true empty := by
  intro m e none empty
  refine ⟨?_, not_isNativeQuery_not _, ?_, fun h => ?_⟩
  · simp only [nativeQuery, queryIn]
    rfl
  · simp only [nativeQuery, queryIn, queriesIn]
    rfl
  · have hname : "$and" ∈ ["$and", "$or", "$nor"] := List.mem_cons_self
    exact ((isNativeQuery_combine_iff hname []).1 h).1 rfl

end Mapper

end Docstore
