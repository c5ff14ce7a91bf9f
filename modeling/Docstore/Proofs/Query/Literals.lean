import Docstore.Proofs.Entity.Listing
import Docstore.Proofs.Record.NormalForm
import Docstore.Proofs.Record.Positions
import Docstore.Proofs.Record.Saving
import Docstore.Query.Native
import Mathlib.Data.List.Forall2

/-!
# Literals of queries and stored values

A query finds what was stored only if its literals have the form in which values are stored.

* `Query.comparands` : what a query compares with literals, by absolute path;
* `Query.literalsIn` : the literals of a native query, read where its operators have them;
* `Query.blank` : the query with null for every literal;
* `Mapper.forall₂_literalsIn` : every literal has the form that a stored value of its field has;
* `Mapper.stopsAt_queryIn` : the first literal that cannot be cast is the reason why a query has no
  native form, when nothing else is;
* `Mapper.literals_nativeQuery` : queries and documents treat a value of a field alike.

The encoder knows where it stands by an absolute path, the native form of a query by a context and
a path relative to it. Contexts below the document are elements (`Entity.Stands`), so both take the
same field for the identifier.
-/

namespace Docstore

/-! ### Literals -/

/-- A literal and the absolute path of what it is compared with. -/
structure Comparand where
  path : Path
  value : Json

namespace Query

mutual

/-- What a query compares with literals, when its paths start at `base`. -/
def comparands (base : Path) : Query → List Comparand
  | .compare field _ value => [⟨base.join field, value⟩]
  | .combine _ queries => comparandsOfAll base queries
  | .negate query => comparands base query
  | .member field _ values => values.map (Comparand.mk (base.join field))
  | .contains array _ values => values.map (Comparand.mk ((base.join array).child .any))
  | .elemMatch array query => comparands ((base.join array).child .any) query
  | _ => []

/-- What the queries of a list compare with literals. -/
def comparandsOfAll (base : Path) : List Query → List Comparand
  | [] => []
  | query :: rest => comparands base query ++ comparandsOfAll base rest

end

mutual

/-- The query with null for every literal. -/
def blank : Query → Query
  | .compare field op _ => .compare field op .null
  | .combine op queries => .combine op (blankAll queries)
  | .negate query => .negate (blank query)
  | .member field op values => .member field op (values.map fun _ => .null)
  | .contains array op values => .contains array op (values.map fun _ => .null)
  | .elemMatch array query => .elemMatch array (blank query)
  | query => query

/-- The queries of a list with null for every literal. -/
def blankAll : List Query → List Query
  | [] => []
  | query :: rest => blank query :: blankAll rest

end

/-- The elements of an array. -/
def itemsOf : Bson → List Bson
  | .array items => items
  | _ => []

/-- The fields of a document. -/
def fieldsOf : Bson → Record
  | .document fields => fields
  | _ => []

/-- What stands under nested names, if anything does. -/
def operands (names : List String) (r : Record) : List Bson :=
  (Bson.follow? (names.map .name) (.document r)).toList

mutual

/-- The literals of the native form of a query, in the order of its comparands. -/
def literalsIn : Query → Record → List Bson
  | .compare field op _, r =>
    operands (if op = .eq then [field.storageText] else [field.storageText, op.native]) r
  | .combine op queries, r =>
    (operands [op.native] r).flatMap fun list => literalsInAll queries (itemsOf list)
  | .negate query, r =>
    (operands [negationOperator] r).flatMap fun list =>
      (itemsOf list).flatMap fun inner => literalsIn query (fieldsOf inner)
  | .member field op _, r => (operands [field.storageText, op.native] r).flatMap itemsOf
  | .contains array .all _, r => (operands [array.storageText, "$all"] r).flatMap itemsOf
  | .contains array .any _, r =>
    (operands ["$or"] r).flatMap fun alternatives =>
      (itemsOf alternatives).flatMap fun b => operands [array.storageText] (fieldsOf b)
  | .contains array .none _, r =>
    (operands ["$not", "$or"] r).flatMap fun alternatives =>
      (itemsOf alternatives).flatMap fun b => operands [array.storageText] (fieldsOf b)
  | .elemMatch array query, r =>
    (operands [array.storageText, "$elemMatch"] r).flatMap fun inner =>
      literalsIn query (fieldsOf inner)
  | _, _ => []

/-- The literals of the native forms of the queries of a list. -/
def literalsInAll : List Query → List Bson → List Bson
  | query :: rest, b :: more => literalsIn query (fieldsOf b) ++ literalsInAll rest more
  | _, _ => []

end

theorem operands_one (name : String) (b : Bson) (rest : Record) :
    operands [name] ((name, b) :: rest) = [b] := by
  simp [operands, Bson.follow?, Fields.get?]

theorem operands_two (outer inner : String) (b : Bson) (rest more : Record) :
    operands [outer, inner] ((outer, .document ((inner, b) :: rest)) :: more) = [b] := by
  simp [operands, Bson.follow?, Fields.get?]

end Query

/-! ### Contexts -/

namespace Entity

/-- The cursor stands at a path that is the root or ends at an element. -/
structure Stands (e : Entity) (base : Path) (context : Cursor) : Prop where
  resolve?_eq : e.resolve? base = some context
  base_eq : base = .root ∨ ∃ above : Path, base = above.child .any

variable {e : Entity} {base field p q : Path} {context c : Cursor}

theorem stands_root (e : Entity) : e.Stands .root e.root := ⟨rfl, .inl rfl⟩

theorem Stands.resolve?_join (h : e.Stands base context) (p : Path) :
    e.resolve? (base.join p) = context.follow? p := by
  have hbase : e.root.follow? base = some context := h.resolve?_eq
  rw [resolve?, Path.join, Cursor.follow?_append, hbase]
  rfl

theorem Stands.element (h : e.Stands base context) (hc : context.follow? p = some c)
    {element : Cursor} (helement : c.element? = some element) :
    e.Stands ((base.join p).child .any) element where
  resolve?_eq := by
    have hjoin : e.root.follow? (base.join p) = some c := (h.resolve?_join p).trans hc
    rw [resolve?, Path.child, Cursor.follow?_append, hjoin]
    exact Option.bind_eq_some_iff.2 ⟨c, rfl, Option.bind_eq_some_iff.2 ⟨element, helement, rfl⟩⟩
  base_eq := .inr ⟨_, rfl⟩

theorem Stands.typeAt?_join (h : e.Stands base context) {t : ScalarType}
    (hc : context.follow? p = some c) (ht : c.node.scalarType? = some t) :
    e.typeAt? (base.join p) = some t := by
  rw [typeAt?, h.resolve?_join, hc]
  exact ht

theorem Stands.typeAt?_child_any (h : e.Stands base context) {t : ScalarType}
    (hc : context.follow? p = some c) (hnode : c.node = .field (.scalarArray t)) :
    e.typeAt? ((base.join p).child .any) = some t := by
  have hjoin : e.root.follow? (base.join p) = some c := (h.resolve?_join p).trans hc
  obtain ⟨node, trail⟩ := c
  subst hnode
  rw [typeAt?, resolve?, Path.child, Cursor.follow?_append, hjoin]
  rfl

theorem isRoot_eq_false (h : e.resolve? (p.child .any) = some c) : c.isRoot = false := by
  have hpath : c.path = Path.labels (p.child .any) := Cursor.path_of_follow? h
  rw [Cursor.isRoot, List.isEmpty_eq_false_iff]
  intro htrail
  rw [Cursor.path, htrail, Path.child, Path.labels_append] at hpath
  cases hp : p.labels <;> rw [hp] at hpath <;> cases hpath

end Entity

namespace Mapper

variable {m : Mapper} {e : Entity} {base field p q : Path} {context c : Cursor}

/-- Paths to one field are identifier paths alike. -/
theorem isIdPath_eq_of_resolve? (hq : e.resolve? q = some c) (h : e.resolve? p = e.resolve? q) :
    m.isIdPath p = m.isIdPath q := by
  have hp : c.path = p.labels := Cursor.path_of_follow? (h.trans hq)
  have hq : c.path = q.labels := Cursor.path_of_follow? hq
  rw [← isIdPath_labels, ← hp, hq, isIdPath_labels]

/-- The context and the path in it tell the identifier as the absolute path does. -/
theorem identify_eq (h : e.Stands base context) (field : Path) (b : Bson) :
    m.identify context field b = if m.isIdPath (base.join field) then b.asIdentifier else b := by
  rcases h.base_eq with rfl | ⟨above, rfl⟩
  · obtain rfl : e.root = context := Option.some.inj h.resolve?_eq
    rfl
  · have hpath : m.isIdPath ((above.child .any).join field) = false := by
      rw [isIdPath, beq_eq_false_iff_ne]
      intro hname
      have hmem : Segment.any ∈ (above.child .any).join field :=
        List.mem_append_left _ (List.mem_append_right _ List.mem_cons_self)
      rw [hname] at hmem
      cases List.mem_singleton.1 hmem
    rw [identify, Entity.isRoot_eq_false h.resolve?_eq, hpath]
    rfl

end Mapper

/-! ### What a native form depends on -/

namespace Mapper

variable {m : Mapper} {e : Entity} {context c : Cursor} {field : Path} {r : Record}

/-- A field of a type that has the comparison is compared with every literal that can be cast. -/
theorem nativeComparison_eq_map {op : Comparison} {t : ScalarType}
    (hc : context.follow? field = some c) (ht : c.node.scalarType? = some t)
    (hop : (if op.isEquality then t.supportsEquality else t.supportsOrdering) = true) (v : Json) :
    m.nativeComparison context field op v = (inPhase .query (t.cast v)).map fun canonical =>
      let literal := m.identify context field canonical.stored
      if op = .eq then [(field.storageText, literal)]
      else underOperator field.storageText op.native literal := by
  rw [nativeComparison, Cursor.resolve_of_follow? hc, ok_bind]
  simp only [ht, hop]
  cases inPhase .query (t.cast v) <;> rfl

/-- Once a field can be compared with some literal, it can be with every one that can be cast. -/
theorem nativeComparison_of_eq_ok {op : Comparison} {w : Json}
    (h : m.nativeComparison context field op w = .ok r) :
    ∃ c t, context.follow? field = some c ∧ c.node.scalarType? = some t ∧ ∀ v,
      m.nativeComparison context field op v = (inPhase .query (t.cast v)).map fun canonical =>
        let literal := m.identify context field canonical.stored
        if op = .eq then [(field.storageText, literal)]
        else underOperator field.storageText op.native literal := by
  obtain ⟨c, hc, h⟩ := bind_eq_ok_iff.1 h
  cases ht : c.node.scalarType? with
  | none =>
    rw [ht] at h
    cases h
  | some t =>
    simp only [ht] at h
    cases hsupported : (if op.isEquality then t.supportsEquality else t.supportsOrdering) with
    | false =>
      rw [hsupported] at h
      cases h
    | true =>
      have hfollow := Cursor.follow?_of_resolve hc
      exact ⟨c, t, hfollow, ht, nativeComparison_eq_map hfollow ht hsupported⟩

/-- A field of a type that has equality is looked for in every list that can be cast. -/
theorem nativeMembership_eq_map {op : Membership} {t : ScalarType}
    (hc : context.follow? field = some c) (ht : c.node.scalarType? = some t)
    (heq : t.supportsEquality = true) (values : List Json) :
    m.nativeMembership context field op values = (literals t field values).map fun bs =>
      underOperator field.storageText op.native (.array (bs.map (m.identify context field))) := by
  have hfilter : c.node.scalarType?.filter ScalarType.supportsEquality = some t :=
    Option.filter_eq_some_iff.2 ⟨ht, heq⟩
  rw [nativeMembership, Cursor.resolve_of_follow? hc, ok_bind]
  simp only [hfilter]
  cases literals t field values <;> rfl

/-- Once a field can be looked for in some list, it can be in every one that can be cast. -/
theorem nativeMembership_of_eq_ok {op : Membership} {ws : List Json}
    (h : m.nativeMembership context field op ws = .ok r) :
    ∃ c t, context.follow? field = some c ∧ c.node.scalarType? = some t ∧ ∀ values,
      m.nativeMembership context field op values = (literals t field values).map fun bs =>
        underOperator field.storageText op.native (.array (bs.map (m.identify context field))) := by
  obtain ⟨c, hc, h⟩ := bind_eq_ok_iff.1 h
  cases hfilter : c.node.scalarType?.filter ScalarType.supportsEquality with
  | none =>
    rw [hfilter] at h
    cases h
  | some t =>
    obtain ⟨ht, heq⟩ := Option.filter_eq_some_iff.1 hfilter
    have hfollow := Cursor.follow?_of_resolve hc
    exact ⟨c, t, hfollow, ht, nativeMembership_eq_map hfollow ht heq⟩

/-- An array of simple values can contain all literals that can be cast. -/
theorem queryIn_contains_eq_map {op : Containment} {t : ScalarType}
    (hc : context.follow? field = some c) (ht : c.node.scalarItems? = some t)
    (values : List Json) :
    m.queryIn e context (.contains field op values) =
      (literals t field values).map (nativeContains field.storageText op) := by
  rw [queryIn, Cursor.resolve_of_follow? hc, ok_bind]
  simp only [ht]
  cases literals t field values <;> rfl

/-- Once an array can contain some literals, it can contain all that can be cast. -/
theorem queryIn_contains_of_eq_ok {op : Containment} {ws : List Json}
    (h : m.queryIn e context (.contains field op ws) = .ok r) :
    ∃ c t, context.follow? field = some c ∧ c.node = .field (.scalarArray t) ∧ ∀ values,
      m.queryIn e context (.contains field op values) =
        (literals t field values).map (nativeContains field.storageText op) := by
  rw [queryIn] at h
  obtain ⟨c, hc, h⟩ := bind_eq_ok_iff.1 h
  have hnode : ∀ t, c.node.scalarItems? = some t → c.node = .field (.scalarArray t) := by
    obtain ⟨node, trail⟩ := c
    rcases node with (_ | _ | _ | _ | _) | _ | _ <;> simp [Node.scalarItems?]
  cases ht : c.node.scalarItems? with
  | none =>
    rw [ht] at h
    cases h
  | some t =>
    have hfollow := Cursor.follow?_of_resolve hc
    exact ⟨c, t, hfollow, hnode t ht, queryIn_contains_eq_map hfollow ht⟩

/-- An element match has the native form that its query has in the elements. -/
theorem queryIn_elemMatch_eq_map {element : Cursor} (hc : context.follow? field = some c)
    (hnode : c.node.isObjectArray = true) (helement : c.element? = some element) (query : Query) :
    m.queryIn e context (.elemMatch field query) = (m.queryIn e element query).map fun inner =>
      underOperator field.storageText "$elemMatch" (.document inner) := by
  rw [queryIn, Cursor.resolve_of_follow? hc, ok_bind]
  simp only [hnode, helement]
  cases m.queryIn e element query <;> rfl

/-- An element match has a native form when its query has one in the elements. -/
theorem queryIn_elemMatch_of_eq_ok {query : Query}
    (h : m.queryIn e context (.elemMatch field query) = .ok r) :
    ∃ c element, context.follow? field = some c ∧ c.element? = some element ∧ ∀ query,
      m.queryIn e context (.elemMatch field query) = (m.queryIn e element query).map fun inner =>
        underOperator field.storageText "$elemMatch" (.document inner) := by
  rw [queryIn] at h
  obtain ⟨c, hc, h⟩ := bind_eq_ok_iff.1 h
  cases hnode : c.node.isObjectArray with
  | false =>
    rw [hnode] at h
    cases h
  | true =>
    cases helement : c.element? with
    | none =>
      rw [hnode, helement] at h
      cases h
    | some element =>
      have hfollow := Cursor.follow?_of_resolve hc
      exact ⟨c, element, hfollow, helement, queryIn_elemMatch_eq_map hfollow hnode helement⟩

/-- Fields are compared with each other in the document itself, by a script. -/
theorem exists_script_of_eq_ok {script : Except Error Script} {err : Error}
    (h : (if context.isRoot then do
        let s ← script
        return [("$where", Bson.string s.text)]
      else .error err) = .ok r) :
    context.isRoot = true ∧ ∃ s, script = .ok s ∧ r = [("$where", .string s.text)] := by
  split at h
  case isTrue hroot =>
    obtain ⟨s, hs, h⟩ := bind_eq_ok_iff.1 h
    exact ⟨hroot, s, hs, (pure_eq_ok_iff.1 h).symm⟩
  case isFalse => cases h

/-! ### The form of literals -/

/-- The literal is the value of the comparand, cast to the type of its field, in its stored form,
and in the one form of identifiers when it is the identifier of the document. -/
def StoresAs (m : Mapper) (e : Entity) (x : Comparand) (literal : Bson) : Prop :=
  ∃ t c, e.typeAt? x.path = some t ∧ t.cast x.value = .ok c ∧
    literal = if m.isIdPath x.path then c.stored.asIdentifier else c.stored

/-- A list of results has the results of the elements, in order. -/
theorem forall₂_of_mapM {α β : Type} {f : α → Except Error β} {as : List α} {bs : List β}
    (h : as.mapM f = .ok bs) : List.Forall₂ (fun a b => f a = .ok b) as bs := by
  induction as generalizing bs with
  | nil =>
    obtain rfl := pure_eq_ok_iff.1 h
    exact .nil
  | cons a rest ih =>
    rw [List.mapM_cons] at h
    obtain ⟨b, hb, h⟩ := bind_eq_ok_iff.1 h
    obtain ⟨more, hmore, h⟩ := bind_eq_ok_iff.1 h
    obtain rfl := pure_eq_ok_iff.1 h
    exact .cons hb (ih hmore)

theorem forall₂_literals {t : ScalarType} {values : List Json} {bs : List Bson}
    (h : literals t field values = .ok bs) :
    List.Forall₂ (fun v b => ∃ c, t.cast v = .ok c ∧ b = c.stored) values bs := by
  rw [literals] at h
  split at h
  · cases h
  · refine (forall₂_of_mapM h).imp fun v b hb => ?_
    obtain ⟨c, hc, hb⟩ := bind_eq_ok_iff.1 hb
    exact ⟨c, inPhase_eq_ok_iff.1 hc, (pure_eq_ok_iff.1 hb).symm⟩

theorem literalsIn_nativeContains (op : Containment) (values : List Json) (bs : List Bson) :
    (Query.contains field op values).literalsIn (nativeContains field.storageText op bs) = bs := by
  have halternatives : ((bs.map fun b => Bson.document [(field.storageText, b)]).flatMap fun b =>
      Query.operands [field.storageText] (Query.fieldsOf b)) = bs := by
    induction bs with
    | nil => rfl
    | cons b rest ih =>
      rw [List.map_cons, List.flatMap_cons, ih, Query.fieldsOf, Query.operands_one]
      rfl
  cases op <;>
    simp only [Query.literalsIn, nativeContains, underOperator, containsAny, Query.operands_one,
      Query.operands_two, List.flatMap_cons, List.flatMap_nil, List.append_nil, Query.itemsOf,
      halternatives]

mutual

/-- Every literal of a native query has the stored form of its field. -/
theorem forall₂_literalsIn : ∀ {q : Query} {base : Path} {context : Cursor} {r : Record},
    e.Stands base context → m.queryIn e context q = .ok r →
      List.Forall₂ (m.StoresAs e) (q.comparands base) (q.literalsIn r)
  | .compare field op value, base, context, r, hbase, h => by
    rw [queryIn] at h
    obtain ⟨c, t, hc, ht, heq⟩ := nativeComparison_of_eq_ok h
    rw [heq value] at h
    obtain ⟨canonical, hcast, rfl⟩ := map_eq_ok_iff.1 h
    have hform : m.StoresAs e ⟨base.join field, value⟩
        (m.identify context field canonical.stored) :=
      ⟨t, canonical, hbase.typeAt?_join hc ht, inPhase_eq_ok_iff.1 hcast, identify_eq hbase field _⟩
    rw [Query.comparands, Query.literalsIn]
    split
    · rw [Query.operands_one]
      exact .cons hform .nil
    · rw [underOperator, Query.operands_two]
      exact .cons hform .nil
  | .member field op values, base, context, r, hbase, h => by
    rw [queryIn] at h
    obtain ⟨c, t, hc, ht, heq⟩ := nativeMembership_of_eq_ok h
    rw [heq values] at h
    obtain ⟨bs, hbs, rfl⟩ := map_eq_ok_iff.1 h
    have htype := hbase.typeAt?_join hc ht
    rw [Query.literalsIn, underOperator, Query.operands_two, List.flatMap_singleton, Query.itemsOf,
      Query.comparands, List.forall₂_map_left_iff, List.forall₂_map_right_iff]
    refine (forall₂_literals hbs).imp fun v b hb => ?_
    obtain ⟨canonical, hcast, rfl⟩ := hb
    exact ⟨t, canonical, htype, hcast, identify_eq hbase field _⟩
  | .contains array op values, base, context, r, hbase, h => by
    obtain ⟨c, t, hc, hnode, heq⟩ := queryIn_contains_of_eq_ok h
    rw [heq values] at h
    obtain ⟨bs, hbs, rfl⟩ := map_eq_ok_iff.1 h
    rw [literalsIn_nativeContains, Query.comparands, List.forall₂_map_left_iff]
    refine (forall₂_literals hbs).imp fun v b hb => ?_
    obtain ⟨canonical, hcast, rfl⟩ := hb
    refine ⟨t, canonical, hbase.typeAt?_child_any hc hnode, hcast, ?_⟩
    rw [isIdPath_child_any]
    rfl
  | .elemMatch array query, base, context, r, hbase, h => by
    obtain ⟨c, element, hc, helement, heq⟩ := queryIn_elemMatch_of_eq_ok h
    rw [heq query] at h
    obtain ⟨inner, hinner, rfl⟩ := map_eq_ok_iff.1 h
    rw [Query.literalsIn, underOperator, Query.operands_two, List.flatMap_singleton, Query.fieldsOf,
      Query.comparands]
    exact forall₂_literalsIn (hbase.element hc helement) hinner
  | .combine op queries, base, context, r, hbase, h => by
    rw [queryIn] at h
    obtain ⟨bs, hbs, h⟩ := bind_eq_ok_iff.1 h
    obtain rfl := pure_eq_ok_iff.1 h
    rw [Query.literalsIn, Query.operands_one, List.flatMap_singleton, Query.itemsOf,
      Query.comparands]
    exact forall₂_literalsInAll hbase hbs
  | .negate query, base, context, r, hbase, h => by
    rw [queryIn] at h
    obtain ⟨inner, hinner, h⟩ := bind_eq_ok_iff.1 h
    obtain rfl := pure_eq_ok_iff.1 h
    rw [Query.literalsIn, Query.operands_one, List.flatMap_singleton, Query.itemsOf,
      List.flatMap_singleton, Query.comparands]
    exact forall₂_literalsIn hbase hinner
  | .compareFields _ _ _, base, context, r, hbase, h => by
    rw [Query.literalsIn, Query.comparands] <;> first | exact .nil | nofun
  | .memberOf _ _ _, base, context, r, hbase, h => by
    rw [Query.literalsIn, Query.comparands] <;> first | exact .nil | nofun
  | .regex _ _ _, base, context, r, hbase, h => by
    rw [Query.literalsIn, Query.comparands] <;> first | exact .nil | nofun

theorem forall₂_literalsInAll : ∀ {queries : List Query} {base : Path} {context : Cursor}
    {bs : List Bson}, e.Stands base context → m.queriesIn e context queries = .ok bs →
      List.Forall₂ (m.StoresAs e) (Query.comparandsOfAll base queries)
        (Query.literalsInAll queries bs)
  | [], base, context, bs, hbase, h => by
    rw [Query.comparandsOfAll, Query.literalsInAll] <;> first | exact .nil | nofun
  | query :: rest, base, context, bs, hbase, h => by
    rw [queriesIn] at h
    obtain ⟨r, hr, h⟩ := bind_eq_ok_iff.1 h
    obtain ⟨more, hmore, h⟩ := bind_eq_ok_iff.1 h
    obtain rfl := pure_eq_ok_iff.1 h
    rw [Query.comparandsOfAll, Query.literalsInAll, Query.fieldsOf]
    exact List.rel_append (forall₂_literalsIn hbase hr) (forall₂_literalsInAll hbase hmore)

end

/-! ### Literals that cannot be cast -/

end Mapper

/-- Why a value cannot be cast to a type. -/
def ScalarType.castError? (t : ScalarType) (v : Json) : Option CastError :=
  match t.cast v with
  | .ok _ => none
  | .error cause => some cause

theorem ScalarType.castError?_eq_some_iff {t : ScalarType} {v : Json} {cause : CastError} :
    t.castError? v = some cause ↔ t.cast v = .error cause := by
  rw [castError?]
  cases t.cast v <;> simp

/-- Why the value of a comparand cannot be cast to the type of its field. -/
def Entity.castError? (e : Entity) (x : Comparand) : Option CastError :=
  (e.typeAt? x.path).bind fun t => t.castError? x.value

namespace Mapper

/-- The translation stops with a cast error, or succeeds when there is none. -/
def StopsAt {α : Type} (x : Except Error α) : Option CastError → Prop
  | none => ∃ a, x = .ok a
  | some cause => x = .error (.conversion .query cause)

section

variable {α β : Type} {x : Except Error α} {fault fault' : Option CastError}

theorem StopsAt.bind {f : α → Except Error β} (h : StopsAt x fault)
    (hf : ∀ a, x = .ok a → StopsAt (f a) fault') : StopsAt (x >>= f) (fault.or fault') := by
  cases fault with
  | none =>
    obtain ⟨a, rfl⟩ := h
    exact hf a rfl
  | some cause =>
    obtain rfl : x = .error (.conversion .query cause) := h
    rfl

theorem StopsAt.map (h : StopsAt x fault) (f : α → β) : StopsAt (x.map f) fault := by
  cases fault with
  | none =>
    obtain ⟨a, rfl⟩ := h
    exact ⟨f a, rfl⟩
  | some cause =>
    obtain rfl : x = .error (.conversion .query cause) := h
    rfl

theorem stopsAt_cast (t : ScalarType) (v : Json) :
    StopsAt (inPhase .query (t.cast v)) (t.castError? v) := by
  rw [ScalarType.castError?]
  cases t.cast v with
  | ok c => exact ⟨c, rfl⟩
  | error cause => rfl

end

variable {m : Mapper} {e : Entity} {context c : Cursor} {field : Path} {r : Record}

theorem stopsAt_mapM {α β : Type} {f : α → Except Error β} {fault? : α → Option CastError}
    (h : ∀ a, StopsAt (f a) (fault? a)) (as : List α) :
    StopsAt (as.mapM f) (as.findSome? fault?) := by
  induction as with
  | nil => exact ⟨[], rfl⟩
  | cons a rest ih =>
    have hfault : (a :: rest).findSome? fault? = (fault? a).or (rest.findSome? fault?) := by
      rw [List.findSome?_cons]
      cases fault? a <;> rfl
    rw [List.mapM_cons, hfault]
    exact (h a).bind fun b _ => ih.map (b :: ·)

/-- Literals have stored forms when there is one, but for the first that cannot be cast. -/
theorem stopsAt_literals_of_ne_nil {values : List Json} (h : values ≠ []) (t : ScalarType) :
    StopsAt (literals t field values) (values.findSome? t.castError?) := by
  rw [literals, List.isEmpty_eq_false_iff.2 h]
  exact stopsAt_mapM (fun v => (stopsAt_cast t v).map Canonical.stored) values

/-- Once a list of as many literals has stored forms, the first one that cannot be cast is the
reason why others have none. -/
theorem stopsAt_literals {t : ScalarType} {values : List Json} {bs : List Bson}
    (h : literals t field (values.map fun _ => .null) = .ok bs) :
    StopsAt (literals t field values) (values.findSome? t.castError?) := by
  refine stopsAt_literals_of_ne_nil ?_ t
  rintro rfl
  cases h

theorem findSome?_comparands {t : ScalarType} {p : Path} (h : e.typeAt? p = some t)
    (values : List Json) :
    (values.map (Comparand.mk p)).findSome? e.castError? = values.findSome? t.castError? := by
  rw [List.findSome?_map]
  congr 1
  funext v
  exact congrArg (Option.bind · fun t => t.castError? v) h

mutual

/-- A query that has a native form with null for every literal has one when every literal can be
cast, and otherwise the first that cannot is the reason. -/
theorem stopsAt_queryIn : ∀ {q : Query} {base : Path} {context : Cursor} {r : Record},
    e.Stands base context → m.queryIn e context q.blank = .ok r →
      StopsAt (m.queryIn e context q) ((q.comparands base).findSome? e.castError?)
  | .compare field op value, base, context, r, hbase, h => by
    rw [Query.blank, queryIn] at h
    obtain ⟨c, t, hc, ht, heq⟩ := nativeComparison_of_eq_ok h
    rw [queryIn, heq value, Query.comparands, List.findSome?_singleton, Entity.castError?,
      hbase.typeAt?_join hc ht]
    exact (stopsAt_cast t value).map _
  | .member field op values, base, context, r, hbase, h => by
    rw [Query.blank, queryIn] at h
    obtain ⟨c, t, hc, ht, heq⟩ := nativeMembership_of_eq_ok h
    rw [heq] at h
    obtain ⟨bs, hbs, -⟩ := map_eq_ok_iff.1 h
    rw [queryIn, heq, Query.comparands, findSome?_comparands (hbase.typeAt?_join hc ht)]
    exact (stopsAt_literals hbs).map _
  | .contains array op values, base, context, r, hbase, h => by
    rw [Query.blank] at h
    obtain ⟨c, t, hc, hnode, heq⟩ := queryIn_contains_of_eq_ok h
    rw [heq] at h
    obtain ⟨bs, hbs, -⟩ := map_eq_ok_iff.1 h
    rw [heq, Query.comparands, findSome?_comparands (hbase.typeAt?_child_any hc hnode)]
    exact (stopsAt_literals hbs).map _
  | .elemMatch array query, base, context, r, hbase, h => by
    rw [Query.blank] at h
    obtain ⟨c, element, hc, helement, heq⟩ := queryIn_elemMatch_of_eq_ok h
    rw [heq] at h
    obtain ⟨inner, hinner, -⟩ := map_eq_ok_iff.1 h
    rw [heq, Query.comparands]
    exact (stopsAt_queryIn (hbase.element hc helement) hinner).map _
  | .combine op queries, base, context, r, hbase, h => by
    rw [Query.blank, queryIn] at h
    obtain ⟨bs, hbs, h⟩ := bind_eq_ok_iff.1 h
    rw [queryIn, Query.comparands]
    exact (stopsAt_queriesIn hbase hbs).map _
  | .negate query, base, context, r, hbase, h => by
    rw [Query.blank, queryIn] at h
    obtain ⟨inner, hinner, h⟩ := bind_eq_ok_iff.1 h
    rw [queryIn, Query.comparands]
    exact (stopsAt_queryIn hbase hinner).map _
  | .compareFields _ _ _, base, context, r, hbase, h => ⟨r, h⟩
  | .memberOf _ _ _, base, context, r, hbase, h => ⟨r, h⟩
  | .regex _ _ _, base, context, r, hbase, h => ⟨r, h⟩

theorem stopsAt_queriesIn : ∀ {queries : List Query} {base : Path} {context : Cursor}
    {bs : List Bson}, e.Stands base context →
      m.queriesIn e context (Query.blankAll queries) = .ok bs →
        StopsAt (m.queriesIn e context queries)
          ((Query.comparandsOfAll base queries).findSome? e.castError?)
  | [], base, context, bs, hbase, h => ⟨[], by rw [queriesIn]⟩
  | query :: rest, base, context, bs, hbase, h => by
    rw [Query.blankAll, queriesIn] at h
    obtain ⟨r, hr, h⟩ := bind_eq_ok_iff.1 h
    obtain ⟨more, hmore, -⟩ := bind_eq_ok_iff.1 h
    rw [queriesIn, Query.comparandsOfAll, List.findSome?_append]
    exact (stopsAt_queryIn hbase hr).bind fun r _ => (stopsAt_queriesIn hbase hmore).map _

end

/-! ### Literals and stored values -/

/-- What is stored at a position of a document has the form of the literals that its value is
compared with. -/
theorem follow?_eq_of_storesAs {x : Comparand} {literal : Bson} {d : Json} {p : Path}
    (hx : m.StoresAs e x literal) (hr : m.encodeAs e d = .ok r)
    (hp : e.resolve? p = e.resolve? x.path) (hd : d.follow? p = some x.value) :
    Bson.follow? p (.document r) = some literal := by
  obtain ⟨t, c, htype, hcast, rfl⟩ := hx
  obtain ⟨cursor, hcursor, -⟩ := Option.bind_eq_some_iff.1 htype
  have hf := Entity.follow?_of_typeAt? htype hp
  obtain ⟨stored, hstored, hencodes⟩ := (Entity.encodes_of_encodeAs hr).follow? hf hd
  have hscalar : m.encodeScalar t p x.value = .ok stored := hencodes.encodeScalar_eq
  obtain ⟨c', hc', rfl⟩ := encodeScalar_eq_ok_iff.1 hscalar
  obtain rfl : c = c' := Except.ok.inj (hcast.symm.trans hc')
  rw [hstored, isIdPath_eq_of_resolve? hcursor hp]

/-- Queries and documents treat a value of a field alike. A literal of a native query is what is
stored for its value at any position of the field. A literal that cannot be cast is the reason why
the query has no native form, and the same value the reason why a document cannot be encoded, when
nothing else is. -/
theorem literals_nativeQuery (m : Mapper) (e : Entity) (q : Query) :
    (∀ r, m.nativeQuery e q = .ok r →
      List.Forall₂ (fun x literal => m.StoresAs e x literal ∧
        ∀ d stored p, m.encodeAs e d = .ok stored → e.resolve? p = e.resolve? x.path →
          d.follow? p = some x.value → Bson.follow? p (.document stored) = some literal)
        (q.comparands .root) (q.literalsIn r)) ∧
    ((∃ r, m.nativeQuery e q.blank = .ok r) → ∀ cause,
      (q.comparands .root).findSome? e.castError? = some cause →
        m.nativeQuery e q = .error (.conversion .query cause)) ∧
    ∀ x ∈ q.comparands .root, ∀ cause, e.castError? x = some cause →
      ∀ d p, e.resolve? p = e.resolve? x.path → d.follow? p = some x.value →
        (∃ stored, m.encodeAs e (d.replaceAt p .null) = .ok stored) →
          m.encodeAs e d = .error (.conversion .encode cause) := by
  refine ⟨fun r hr => ?_, fun ⟨r, hr⟩ cause hcause => ?_, fun x _ cause hcause d p hp hd hother => ?_⟩
  · exact (forall₂_literalsIn e.stands_root hr).imp fun x literal hx =>
      ⟨hx, fun d stored p hstored hp hd => follow?_eq_of_storesAs hx hstored hp hd⟩
  · have hstops := stopsAt_queryIn e.stands_root hr
    rw [hcause] at hstops
    exact hstops
  · obtain ⟨t, htype, hcast⟩ := Option.bind_eq_some_iff.1 hcause
    exact encodeAs_eq_error (Entity.follow?_of_typeAt? htype hp) hd
      (ScalarType.castError?_eq_some_iff.1 hcast) hother

/-- The identifier of a table and those of its rows have the name in common, not the form. -/
theorem literals_nativeQuery_identifiers :
    let m : Mapper := { entities := [] }
    let e : Entity := ⟨"table", [("_id", .scalar .string),
      ("rows", .objectArray [("_id", .scalar .string)])]⟩
    let text := "0123456789abcdef01234567"
    let id : ObjectId := ⟨[0, 1, 2, 3, 4, 5, 6, 7, 8, 9, 10, 11, 12, 13, 14, 15, 0, 1, 2, 3, 4, 5,
      6, 7], rfl⟩
    let own : Query := .compare [.name "_id"] .eq (.string text)
    let q : Query := .combine .and [own, .elemMatch [.name "rows"] own]
    let d : Json := .object [("_id", .string text), ("rows", .array [.object [("_id",
      .string text)]])]
    ∃ r stored, m.nativeQuery e q = .ok r ∧ m.encodeAs e d = .ok stored ∧
      q.literalsIn r = [.objectId id, .string text] ∧
      Bson.follow? [.name "_id"] (.document stored) = some (.objectId id) ∧
      Bson.follow? [.name "rows", .index 0, .name "_id"] (.document stored) =
        some (.string text) := by
  intro m e text id own q d
  have hform : (Bson.string text).asIdentifier = .objectId id := by
    have hread : ObjectId.ofText? text = some id := ObjectId.ofText?_text id
    have hidentifier : (Bson.string text).asIdentifier = Bson.identifierOfText text := rfl
    rw [hidentifier, Bson.identifierOfText, hread]
  have hq : m.nativeQuery e q = .ok [("$and", .array [.document [("_id",
      (Bson.string text).asIdentifier)], .document [("rows", .document [("$elemMatch",
      .document [("_id", .string text)])])]])] := by
    simp only [nativeQuery, q, own, queryIn, queriesIn]
    rfl
  have hd : m.encodeAs e d = .ok [("_id", (Bson.string text).asIdentifier),
    ("rows", .array [.document [("_id", .string text)]])] := rfl
  rw [hform] at hq hd
  have hliterals := (literals_nativeQuery m e q).1 _ hq
  cases hliterals with
  | cons hid hrest =>
    cases hrest with
    | cons hrow hnil => exact ⟨_, _, hq, hd, rfl, hid.2 d _ _ hd rfl rfl, hrow.2 d _ _ hd rfl rfl⟩

end Mapper

end Docstore
