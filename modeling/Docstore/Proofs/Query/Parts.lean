import Docstore.Proofs.Query.Literals

/-!
# Parts of native queries

The native form of a query has the native forms of its subqueries inside. Where a part maps the key
of a field to a literal itself, with no operator between them, the store would take a document for
a condition.

* `Query.parts` : the subqueries with their native forms, read where their operators have them;
* `NativePart.bareLiterals` : the literals that stand directly under the key of a field;
* `Mapper.forall₂_parts` : every subquery has its native form among the parts;
* `ScalarType.stored_eq_document_iff` : documents are stored for free-form objects only;
* `Mapper.bareLiterals_iff` : the bare literals of a native query are no documents exactly when no
  containment test is given one.

Comparisons and membership tests refuse fields of free-form values. Containment tests take them.
-/

namespace Docstore

/-- A query and its native form. -/
structure NativePart where
  query : Query
  native : Record

namespace Query

mutual

/-- The query and every query inside it, the outer ones first. -/
def subqueries : Query → List Query
  | .combine op queries => .combine op queries :: subqueriesOfAll queries
  | .negate query => .negate query :: subqueries query
  | .elemMatch array query => .elemMatch array query :: subqueries query
  | query => [query]

/-- The queries of a list and every query inside them. -/
def subqueriesOfAll : List Query → List Query
  | [] => []
  | query :: rest => subqueries query ++ subqueriesOfAll rest

end

mutual

/-- The subqueries of a query with the native forms that the native form of the query has for
them. -/
def parts : Query → Record → List NativePart
  | .combine op queries, r =>
    ⟨.combine op queries, r⟩ ::
      (operands [op.native] r).flatMap fun list => partsOfAll queries (itemsOf list)
  | .negate query, r =>
    ⟨.negate query, r⟩ :: (operands [negationOperator] r).flatMap fun list =>
      (itemsOf list).flatMap fun inner => parts query (fieldsOf inner)
  | .elemMatch array query, r =>
    ⟨.elemMatch array query, r⟩ ::
      (operands [array.storageText, "$elemMatch"] r).flatMap fun inner =>
        parts query (fieldsOf inner)
  | query, r => [⟨query, r⟩]

/-- The parts of the native forms of the queries of a list. -/
def partsOfAll : List Query → List Bson → List NativePart
  | query :: rest, b :: more => parts query (fieldsOf b) ++ partsOfAll rest more
  | _, _ => []

end

/-- The native form has the literals of the query directly under the key of its field. -/
def comparesBare : Query → Bool
  | .compare _ op _ => op == .eq
  | .contains _ op _ => op != .all
  | _ => false

/-- The query is no containment test that has a document directly under the key of its field. -/
def SparesDocuments : Query → Prop
  | .contains _ op values =>
    op = .all ∨ ∀ v ∈ values, ∀ fields, Bson.ofJson v ≠ .ok (.document fields)
  | _ => True

end Query

/-- The literals that stand directly under the key of a field. -/
def NativePart.bareLiterals (part : NativePart) : List Bson :=
  if part.query.comparesBare then part.query.literalsIn part.native else []

/-! ### Subqueries and their native forms -/

namespace Mapper

variable {m : Mapper} {e : Entity}

/-- The native form of a part is that of its query, in some context. -/
def Translates (m : Mapper) (e : Entity) (part : NativePart) : Prop :=
  ∃ context, m.queryIn e context part.query = .ok part.native

mutual

/-- The parts are the subqueries, each with its native form. -/
theorem forall₂_parts : ∀ {q : Query} {context : Cursor} {r : Record},
    m.queryIn e context q = .ok r →
      List.Forall₂ (fun s part => part.query = s ∧ m.Translates e part) q.subqueries (q.parts r)
  | .combine op queries, context, r, h => by
    have hself : m.Translates e ⟨.combine op queries, r⟩ := ⟨context, h⟩
    rw [queryIn] at h
    obtain ⟨bs, hbs, h⟩ := bind_eq_ok_iff.1 h
    obtain rfl := pure_eq_ok_iff.1 h
    rw [Query.subqueries, Query.parts, Query.operands_one, List.flatMap_singleton, Query.itemsOf]
    exact .cons ⟨rfl, hself⟩ (forall₂_partsOfAll hbs)
  | .negate query, context, r, h => by
    have hself : m.Translates e ⟨.negate query, r⟩ := ⟨context, h⟩
    rw [queryIn] at h
    obtain ⟨inner, hinner, h⟩ := bind_eq_ok_iff.1 h
    obtain rfl := pure_eq_ok_iff.1 h
    rw [Query.subqueries, Query.parts, Query.operands_one, List.flatMap_singleton, Query.itemsOf,
      List.flatMap_singleton]
    exact .cons ⟨rfl, hself⟩ (forall₂_parts hinner)
  | .elemMatch array query, context, r, h => by
    have hself : m.Translates e ⟨.elemMatch array query, r⟩ := ⟨context, h⟩
    obtain ⟨c, element, hc, helement, heq⟩ := queryIn_elemMatch_of_eq_ok h
    rw [heq query] at h
    obtain ⟨inner, hinner, rfl⟩ := map_eq_ok_iff.1 h
    rw [Query.subqueries, Query.parts, underOperator, Query.operands_two, List.flatMap_singleton,
      Query.fieldsOf]
    exact .cons ⟨rfl, hself⟩ (forall₂_parts hinner)
  | .compare _ _ _, context, r, h => .cons ⟨rfl, context, h⟩ .nil
  | .compareFields _ _ _, context, r, h => .cons ⟨rfl, context, h⟩ .nil
  | .member _ _ _, context, r, h => .cons ⟨rfl, context, h⟩ .nil
  | .memberOf _ _ _, context, r, h => .cons ⟨rfl, context, h⟩ .nil
  | .regex _ _ _, context, r, h => .cons ⟨rfl, context, h⟩ .nil
  | .contains _ _ _, context, r, h => .cons ⟨rfl, context, h⟩ .nil

theorem forall₂_partsOfAll : ∀ {queries : List Query} {context : Cursor} {bs : List Bson},
    m.queriesIn e context queries = .ok bs →
      List.Forall₂ (fun s part => part.query = s ∧ m.Translates e part)
        (Query.subqueriesOfAll queries) (Query.partsOfAll queries bs)
  | [], context, bs, h => by
    rw [Query.subqueriesOfAll, Query.partsOfAll] <;> first | exact .nil | nofun
  | query :: rest, context, bs, h => by
    rw [queriesIn] at h
    obtain ⟨r, hr, h⟩ := bind_eq_ok_iff.1 h
    obtain ⟨more, hmore, h⟩ := bind_eq_ok_iff.1 h
    obtain rfl := pure_eq_ok_iff.1 h
    rw [Query.subqueriesOfAll, Query.partsOfAll, Query.fieldsOf]
    exact List.rel_append (forall₂_parts hr) (forall₂_partsOfAll hmore)

end

/-- The parts of a native query have its subqueries, in order. -/
theorem map_query_parts {q : Query} {context : Cursor} {r : Record}
    (h : m.queryIn e context q = .ok r) : (q.parts r).map NativePart.query = q.subqueries := by
  have hsame : List.Forall₂ (· = ·) q.subqueries ((q.parts r).map NativePart.query) := by
    rw [List.forall₂_map_right_iff]
    exact (forall₂_parts h).imp fun s part hpart => hpart.1.symm
  rw [List.forall₂_eq_eq_eq] at hsame
  exact hsame.symm

end Mapper

/-! ### Stored documents -/

/-- Documents are stored in free-form fields only. -/
theorem ScalarType.eq_any_of_stored_eq_document {t : ScalarType} {v : Json} {c : Canonical}
    {fields : Record} (h : t.cast v = .ok c) (hc : c.stored = .document fields) : t = .any := by
  cases c with
  | any b => exact eq_any_of_cast h
  | _ => cases hc

/-- A document is stored for a literal exactly when the literal is one as a free-form value. -/
theorem ScalarType.stored_eq_document_iff {t : ScalarType} {v : Json} {c : Canonical}
    {fields : Record} (h : t.cast v = .ok c) :
    c.stored = .document fields ↔ Bson.ofJson v = .ok (.document fields) := by
  by_cases hv : v = .null
  · subst hv
    rw [cast_null] at h
    obtain rfl := Except.ok.inj h
    simp [Canonical.stored, Bson.ofJson]
  by_cases ht : t = .any
  · subst ht
    obtain ⟨b, hb, rfl⟩ := (cast_any_eq_ok_iff hv).1 h
    simp [Canonical.stored, hb]
  have hstored : c.stored ≠ .document fields := fun hc => ht (eq_any_of_stored_eq_document h hc)
  rw [cast_eq_ok_iff ht hv] at h
  -- Every other type refuses objects and arrays.
  have hjson : Bson.ofJson v ≠ .ok (.document fields) := by
    cases v with
    | object members => cases t <;> cases h
    | array items => cases t <;> cases h
    | int n =>
      rw [Bson.ofJson]
      split <;> simp
    | _ => simp [Bson.ofJson]
  exact iff_of_false hstored hjson

/-! ### Literals and where they stand -/

/-- Lists that agree element by element on two properties have them throughout alike. -/
theorem forall_mem_iff_of_forall₂ {α β : Type} {P : α → Prop} {Q : β → Prop} {as : List α}
    {bs : List β} (h : List.Forall₂ (fun a b => P a ↔ Q b) as bs) :
    (∀ a ∈ as, P a) ↔ ∀ b ∈ bs, Q b := by
  induction h with
  | nil => exact iff_of_true (List.forall_mem_nil _) (List.forall_mem_nil _)
  | cons hab _ ih => rw [List.forall_mem_cons, List.forall_mem_cons, hab, ih]

theorem Bson.asIdentifier_ne_document (b : Bson) (fields : Record) :
    b.asIdentifier ≠ .document fields := by
  rcases b.asIdentifier_form with h | ⟨id, h⟩ | ⟨text, h⟩ <;> simp [h]

namespace Mapper

variable {m : Mapper} {e : Entity} {context : Cursor} {field : Path} {r : Record}

theorem identify_ne_document {b : Bson} (h : ∀ fields, b ≠ .document fields) (fields : Record) :
    m.identify context field b ≠ .document fields := by
  rw [identify]
  split
  · exact b.asIdentifier_ne_document fields
  · exact h fields

/-- What is compared with a literal has no free-form values, and the literal is stored without an
operator for equality only. -/
theorem exists_cast_of_nativeComparison {op : Comparison} {v : Json}
    (h : m.nativeComparison context field op v = .ok r) :
    (∃ cursor, context.follow? field = some cursor) ∧
      ∃ (t : ScalarType) (c : Canonical), t ≠ .any ∧ t.cast v = .ok c ∧
        r = if op = .eq then [(field.storageText, m.identify context field c.stored)]
          else underOperator field.storageText op.native (m.identify context field c.stored) := by
  obtain ⟨cursor, hcursor, h⟩ := bind_eq_ok_iff.1 h
  refine ⟨⟨cursor, Cursor.follow?_of_resolve hcursor⟩, ?_⟩
  cases ht : cursor.node.scalarType? with
  | none =>
    rw [ht] at h
    cases h
  | some t =>
    simp only [ht] at h
    cases hsupported : (if op.isEquality then t.supportsEquality else t.supportsOrdering) with
    | false =>
      rw [hsupported] at h
      cases h
    | true =>
      rw [hsupported] at h
      obtain ⟨c, hcast, h⟩ := bind_eq_ok_iff.1 h
      refine ⟨t, c, ?_, inPhase_eq_ok_iff.1 hcast, (pure_eq_ok_iff.1 h).symm⟩
      rintro rfl
      cases op <;> cases hsupported

/-- There is a literal wherever there are literals. -/
theorem ne_nil_of_literals {t : ScalarType} {values : List Json} {bs : List Bson}
    (h : literals t field values = .ok bs) : bs ≠ [] := by
  rintro rfl
  obtain rfl := List.forall₂_nil_right_iff.1 (forall₂_literals h)
  cases h

/-- The literals of a containment test are stored without further changes, and there is one. -/
theorem exists_literals_of_queryIn_contains {op : Containment} {values : List Json}
    (h : m.queryIn e context (.contains field op values) = .ok r) :
    (∃ cursor, context.follow? field = some cursor) ∧
      ∃ t bs, List.Forall₂ (fun v b => ∃ c, ScalarType.cast t v = .ok c ∧ b = c.stored) values bs ∧
        bs ≠ [] ∧ r = nativeContains field.storageText op bs := by
  obtain ⟨c, t, hc, -, heq⟩ := queryIn_contains_of_eq_ok h
  rw [heq values] at h
  obtain ⟨bs, hbs, rfl⟩ := map_eq_ok_iff.1 h
  exact ⟨⟨c, hc⟩, t, bs, forall₂_literals hbs, ne_nil_of_literals hbs, rfl⟩

/-- Equality has its literal under the key of the field. -/
theorem bareLiterals_compare (field : Path) (v : Json) (b : Bson) :
    NativePart.bareLiterals ⟨.compare field .eq v, [(field.storageText, b)]⟩ = [b] :=
  Query.operands_one field.storageText b []

/-- Containment of any or none has every literal under the key of the array. -/
theorem bareLiterals_contains {op : Containment} (hop : op ≠ .all) (field : Path)
    (values : List Json) (bs : List Bson) :
    NativePart.bareLiterals ⟨.contains field op values, nativeContains field.storageText op bs⟩ =
      bs := by
  have hbare : (Query.contains field op values).comparesBare = true := by
    simpa [Query.comparesBare] using hop
  rw [NativePart.bareLiterals, if_pos hbare, literalsIn_nativeContains]

/-- The bare literals of a part are no documents, unless a containment test is given one. -/
theorem Translates.sparesDocuments_iff {part : NativePart} (h : m.Translates e part) :
    (∀ b ∈ part.bareLiterals, ∀ fields, b ≠ .document fields) ↔ part.query.SparesDocuments := by
  obtain ⟨query, r⟩ := part
  obtain ⟨context, h⟩ := h
  cases query with
  | compare field op v =>
    rw [queryIn] at h
    obtain ⟨-, t, c, ht, hcast, rfl⟩ := exists_cast_of_nativeComparison h
    refine iff_of_true ?_ trivial
    cases op with
    | eq =>
      have hstored : ∀ fields, c.stored ≠ .document fields := fun fields hfields =>
        ht (ScalarType.eq_any_of_stored_eq_document hcast hfields)
      rw [if_pos rfl, bareLiterals_compare, List.forall_mem_singleton]
      exact identify_ne_document hstored
    | _ => exact List.forall_mem_nil _
  | contains field op values =>
    obtain ⟨-, t, bs, hbs, -, rfl⟩ := exists_literals_of_queryIn_contains h
    by_cases hop : op = .all
    · subst hop
      exact iff_of_true (List.forall_mem_nil _) (.inl rfl)
    · rw [bareLiterals_contains hop, Query.SparesDocuments, or_iff_right hop]
      refine (forall_mem_iff_of_forall₂ (hbs.imp fun v b hb => ?_)).symm
      obtain ⟨c, hcast, rfl⟩ := hb
      exact forall_congr' fun fields => (not_congr (ScalarType.stored_eq_document_iff hcast)).symm
  | _ => exact iff_of_true (List.forall_mem_nil _) trivial

/-- The parts of a native query are the native forms of its subqueries. No literal that stands in
one of them directly under the key of a field is a document, where the store would take it for a
condition, as long as no containment test of any or none is given a document. -/
theorem bareLiterals_iff (m : Mapper) (e : Entity) {q : Query} {r : Record}
    (h : m.nativeQuery e q = .ok r) :
    (q.parts r).map NativePart.query = q.subqueries ∧
      ((∀ part ∈ q.parts r, ∀ b ∈ part.bareLiterals, ∀ fields, b ≠ .document fields) ↔
        ∀ s ∈ q.subqueries, s.SparesDocuments) := by
  refine ⟨map_query_parts h, (forall_mem_iff_of_forall₂ ?_).symm⟩
  refine (forall₂_parts h).imp fun s part hpart => ?_
  obtain ⟨rfl, hpart⟩ := hpart
  exact hpart.sparesDocuments_iff.symm

/-- The free-form literals of a containment test inside an element match are a text and a number. -/
theorem bareLiterals_iff_notes :
    let m : Mapper := { entities := [] }
    let e : Entity := ⟨"table", [("name", .scalar .string),
      ("rows", .objectArray [("notes", .scalarArray .any)])]⟩
    let q : Query := .negate (.combine .or [.compare [.name "name"] .eq (.string "first"),
      .elemMatch [.name "rows"] (.contains [.name "notes"] .any [.string "open", .int 7])])
    ∃ r, m.nativeQuery e q = .ok r ∧
      (q.parts r).flatMap NativePart.bareLiterals = [.string "first", .string "open", .int64 7] ∧
      ∀ part ∈ q.parts r, ∀ b ∈ part.bareLiterals, ∀ fields, b ≠ .document fields := by
  intro m e q
  have hquery : m.nativeQuery e q = .ok [("$nor", .array [.document [("$or", .array
      [.document [("name", .string "first")], .document [("rows", .document [("$elemMatch",
        .document [("$or", .array [.document [("notes", .string "open")],
          .document [("notes", .int64 7)]])])])]])]])] := by
    simp only [nativeQuery, q, queryIn, queriesIn]
    rfl
  refine ⟨_, hquery, rfl, (bareLiterals_iff m e hquery).2.2 fun s hs => ?_⟩
  simp only [q, Query.subqueries, Query.subqueriesOfAll, List.mem_cons, List.mem_append,
    List.not_mem_nil, or_false] at hs
  rcases hs with rfl | rfl | rfl | rfl | rfl
  case inr.inr.inr.inr =>
    refine .inr fun v hv fields => ?_
    rcases List.mem_pair.1 hv with rfl | rfl
    · simp [Bson.ofJson]
    · intro hdocument
      cases hdocument
  all_goals trivial

/-- A containment test of a free-form array maps the key of the array to a document of operators.
Membership tests refuse fields of free-form values. -/
theorem contains_operators :
    let m : Mapper := { entities := [] }
    let e : Entity := ⟨"user", [("extras", .scalarArray .any)]⟩
    let positive : Json := .object [("$gt", .int 1)]
    let q : Query := .contains [.name "extras"] .any [positive]
    ∃ r, m.nativeQuery e q = .ok r ∧
      r = [("$or", .array [.document [("extras", .document [("$gt", .int64 1)])]])] ∧
      (¬ ∀ part ∈ q.parts r, ∀ b ∈ part.bareLiterals, ∀ fields, b ≠ .document fields) ∧
      m.nativeQuery e (.member [.name "extras", .any] .isIn [positive]) =
        .error (.invalidField [.name "extras", .any]) := by
  intro m e positive q
  have hquery : m.nativeQuery e q =
      .ok [("$or", .array [.document [("extras", .document [("$gt", .int64 1)])]])] := by
    simp only [nativeQuery, q, queryIn]
    rfl
  refine ⟨_, hquery, rfl, fun hspared => ?_, ?_⟩
  · have hbare : (q.parts [("$or", .array [.document [("extras",
        .document [("$gt", .int64 1)])]])]).flatMap NativePart.bareLiterals =
          [.document [("$gt", .int64 1)]] := rfl
    have hmem := hbare ▸ List.mem_singleton_self (Bson.document [("$gt", .int64 1)])
    obtain ⟨part, hpart, hb⟩ := List.mem_flatMap.1 hmem
    exact hspared part hpart _ hb _ rfl
  · simp only [nativeQuery, queryIn]
    rfl

end Mapper

end Docstore
