import Docstore.Entity.Cursor
import Docstore.Proofs.Fields
import Docstore.Record.Lookup

/-!
# What a path declares

A path leads to a node of an entity and to a value of a record. The element of an array is
declared like a field of the element's own shape.

* `Bson.step?` : the stored value one step below, and following a path as steps in a row;
* `Node.asField` : the declaration of a node as that of a field;
* `Field.follow?` : the declaration that a path leads to from a field;
* `Cursor.follow?_asField` : cursors follow a path as declarations do;
* `Field.FreeFormAbove` : a path goes on below free-form values, where nothing is declared;
* `Field.Reaches` : a path leads to a declaration and a stored value at once;
* `Entity.StoresLeaf` : a simple value of a record is stored at a path;
* `Entity.typeAt?` : the type of the simple values at a path.
-/

namespace Docstore

namespace Bson

/-- The stored value one step below; a wildcard leads nowhere. -/
def step? : Bson → Segment → Option Bson
  | .document fields, .name key => Fields.get? key fields
  | .array items, .index i => items[i]?
  | _, _ => none

theorem follow?_cons (s : Segment) (rest : Path) (b : Bson) :
    Bson.follow? (s :: rest) b = (b.step? s).bind (Bson.follow? rest) := by
  cases s <;> cases b <;> rfl

end Bson

/-- The declaration of a node, an element being declared like a field of its shape. -/
def Node.asField : Node → Field
  | .field f => f
  | .scalarElement t => .scalar t
  | .objectElement members => .object members

namespace Field

theorem MembersDistinct.of_mem {members : List (String × Field)} (h : MembersDistinct members)
    {name : String} {f : Field} (hmem : (name, f) ∈ members) : f.DistinctNames := by
  induction members with
  | nil => cases hmem
  | cons member rest ih =>
    rcases List.mem_cons.1 hmem with rfl | hmem
    · exact h.1
    · exact ih h.2 hmem

/-- The declaration one step below. -/
def step? : Field → Segment → Option Field
  | .object members, .name key => Fields.get? key members
  | .scalarArray t, .index _ => some (.scalar t)
  | .scalarArray t, .any => some (.scalar t)
  | .objectArray members, .index _ => some (.object members)
  | .objectArray members, .any => some (.object members)
  | _, _ => none

/-- The declaration that a path leads to. -/
def follow? (f : Field) : Path → Option Field
  | [] => some f
  | segment :: rest => (f.step? segment).bind fun below => below.follow? rest

/-- A proper beginning of the path leads to free-form values. -/
def FreeFormAbove (f : Field) (p : Path) : Prop :=
  ∃ q, q <+: p ∧ q ≠ p ∧ f.follow? q = some (.scalar .any)

theorem FreeFormAbove.cons {f below : Field} {s : Segment} {p : Path} (hf : f.step? s = some below)
    (h : below.FreeFormAbove p) : f.FreeFormAbove (s :: p) := by
  obtain ⟨q, hq, hne, hany⟩ := h
  refine ⟨s :: q, List.cons_prefix_cons.2 ⟨rfl, hq⟩, fun heq => hne (List.cons.inj heq).2, ?_⟩
  rw [follow?, hf]
  exact hany

/-- Nothing is declared below a simple value. -/
theorem follow?_eq_none_of_scalar {f : Field} {p q : Path} {t : ScalarType}
    (hq : f.follow? q = some (.scalar t)) (hbegins : q <+: p) (hne : q ≠ p) :
    f.follow? p = none := by
  induction q generalizing f p with
  | nil =>
    obtain rfl := Option.some.inj hq
    cases p with
    | nil => exact absurd rfl hne
    | cons s rest => rfl
  | cons s q ih =>
    obtain ⟨below, hstep, hbelow⟩ := Option.bind_eq_some_iff.1 hq
    cases p with
    | nil => exact absurd hbegins (by simp)
    | cons s' rest =>
      obtain ⟨rfl, hrest⟩ := List.cons_prefix_cons.1 hbegins
      rw [follow?, hstep]
      exact ih hbelow hrest fun heq => hne (congrArg (s :: ·) heq)

theorem FreeFormAbove.follow?_eq_none {f : Field} {p : Path} (h : f.FreeFormAbove p) :
    f.follow? p = none := by
  obtain ⟨q, hq, hne, hany⟩ := h
  exact follow?_eq_none_of_scalar hany hq hne

/-- A path leads from a field and a stored value of it to a field and a stored value below. -/
inductive Reaches : Field → Bson → Path → Field → Bson → Prop
  | here (f : Field) (b : Bson) : Reaches f b [] f b
  | member {members : Members} {r : Record} {key : String} {p : Path} {f g : Field} {b found : Bson}
      (hf : members.get? key = some f) (hb : Fields.get? key r = some b)
      (h : Reaches f b p g found) :
      Reaches (.object members) (.document r) (.name key :: p) g found
  | scalarElement {t : ScalarType} {items : List Bson} {i : Nat} {p : Path} {g : Field}
      {b found : Bson} (hb : items[i]? = some b) (h : Reaches (.scalar t) b p g found) :
      Reaches (.scalarArray t) (.array items) (.index i :: p) g found
  | objectElement {members : Members} {items : List Bson} {i : Nat} {p : Path} {g : Field}
      {b found : Bson} (hb : items[i]? = some b) (h : Reaches (.object members) b p g found) :
      Reaches (.objectArray members) (.array items) (.index i :: p) g found

/-- One step in the declaration and in the value, and a way on from there. -/
theorem Reaches.cons {f x g : Field} {b c found : Bson} {s : Segment} {p : Path}
    (hf : f.step? s = some x) (hb : b.step? s = some c) (h : x.Reaches c p g found) :
    f.Reaches b (s :: p) g found := by
  cases s with
  | any => cases b <;> cases hb
  | name key =>
    cases b with
    | document r =>
      cases f with
      | object members => exact .member hf hb h
      | _ => cases hf
    | _ => cases hb
  | index i =>
    cases b with
    | array items =>
      cases f with
      | scalarArray t =>
        obtain rfl : .scalar t = x := Option.some.inj hf
        exact .scalarElement hb h
      | objectArray members =>
        obtain rfl : .object members = x := Option.some.inj hf
        exact .objectElement hb h
      | _ => cases hf
    | _ => cases hb

/-- A path that leads somewhere in the declaration and in the value leads to both at once. -/
theorem reaches_iff {f g : Field} {b found : Bson} {p : Path} :
    f.Reaches b p g found ↔ f.follow? p = some g ∧ Bson.follow? p b = some found := by
  constructor
  · intro h
    induction h with
    | here => exact ⟨rfl, rfl⟩
    | member hf hb _ ih => simpa [follow?, step?, Bson.follow?, hf, hb] using ih
    | scalarElement hb _ ih => simpa [follow?, step?, Bson.follow?, hb] using ih
    | objectElement hb _ ih => simpa [follow?, step?, Bson.follow?, hb] using ih
  · rintro ⟨hf, hb⟩
    induction p generalizing f b with
    | nil =>
      obtain rfl : f = g := Option.some.inj hf
      obtain rfl : b = found := Option.some.inj hb
      exact .here f b
    | cons s rest ih =>
      rw [Bson.follow?_cons] at hb
      obtain ⟨x, hstep, hx⟩ := Option.bind_eq_some_iff.1 hf
      obtain ⟨c, hnext, hc⟩ := Option.bind_eq_some_iff.1 hb
      exact .cons hstep hnext (ih hx hc)

theorem Reaches.trans {f g x : Field} {b c found : Bson} {p q : Path} (h : f.Reaches b p g c)
    (hbelow : g.Reaches c q x found) : f.Reaches b (p ++ q) x found := by
  induction h with
  | here => exact hbelow
  | member hf hb _ ih => exact .member hf hb (ih hbelow)
  | scalarElement hb _ ih => exact .scalarElement hb (ih hbelow)
  | objectElement hb _ ih => exact .objectElement hb (ih hbelow)

/-- An element of an array is reached by its index. -/
theorem Reaches.element {f g : Field} {items : List Bson} {b : Bson} {i : Nat}
    (hstep : f.step? .any = some g) (hb : items[i]? = some b) :
    f.Reaches (.array items) [.index i] g b := by
  have hindex : f.step? (.index i) = some g := by cases f <;> exact hstep
  exact .cons hindex hb (.here g b)

theorem Reaches.distinctNames {f g : Field} {b found : Bson} {p : Path}
    (h : f.Reaches b p g found) (hd : f.DistinctNames) : g.DistinctNames := by
  induction h with
  | here => exact hd
  | member hf _ _ ih => exact ih (hd.2.of_mem (Fields.mem_of_get?_eq_some hf))
  | scalarElement _ _ ih => exact ih trivial
  | objectElement _ _ ih => exact ih hd

end Field

/-- A path leads to a simple field or element of type `t`, and in the record to `leaf`. -/
def Entity.StoresLeaf (e : Entity) (r : Record) (p : Path) (t : ScalarType) (leaf : Bson) : Prop :=
  (e.resolve? p).bind (fun c => c.node.scalarType?) = some t ∧
    Bson.follow? p (.document r) = some leaf

/-- The scalar type of the simple field or simple element at a path. -/
def Entity.typeAt? (e : Entity) (p : Path) : Option ScalarType :=
  (e.resolve? p).bind fun c => c.node.scalarType?

/-! ### Cursors -/

namespace Cursor

theorem findMember?_asField (parent : Node) (trail : List Step) (key : String) (i : Nat)
    (members : Members) :
    (findMember? parent trail key i members).map (fun c => c.node.asField) =
      members.get? key := by
  induction members generalizing i with
  | nil => rfl
  | cons member rest ih =>
    obtain ⟨name, f⟩ := member
    by_cases h : name = key
    · simp [findMember?, Fields.get?, h, Node.asField]
    · simp [findMember?, Fields.get?, h, ih]

theorem step?_asField (c : Cursor) (segment : Segment) :
    (c.step? segment).map (fun below => below.node.asField) = c.node.asField.step? segment := by
  obtain ⟨node, trail⟩ := c
  cases segment with
  | name key =>
    rw [step?, member?, findMember?_asField]
    rcases node with (_ | _ | _ | _ | _) | _ | _ <;> rfl
  | index i => rcases node with (_ | _ | _ | _ | _) | _ | _ <;> rfl
  | any => rcases node with (_ | _ | _ | _ | _) | _ | _ <;> rfl

theorem follow?_asField (c : Cursor) (p : Path) :
    (c.follow? p).map (fun below => below.node.asField) = c.node.asField.follow? p := by
  induction p generalizing c with
  | nil => rfl
  | cons segment rest ih =>
    rw [follow?, Field.follow?, ← step?_asField]
    cases c.step? segment with
    | none => rfl
    | some below => exact ih below

end Cursor

theorem Node.scalarType?_eq_some_iff {n : Node} {t : ScalarType} :
    n.scalarType? = some t ↔ n.asField = .scalar t := by
  rcases n with (_ | _ | _ | _ | _) | _ | _ <;> simp [scalarType?, asField]

namespace Entity

variable {e : Entity} {r : Record} {p q : Path}

theorem resolve?_asField (e : Entity) (p : Path) :
    (e.resolve? p).map (fun c => c.node.asField) = (Field.object e.members).follow? p :=
  e.root.follow?_asField p

/-- The type at a path is that of the simple field or element which is declared there. -/
theorem typeAt?_eq_some_iff {t : ScalarType} :
    e.typeAt? p = some t ↔ (Field.object e.members).follow? p = some (.scalar t) := by
  rw [typeAt?, ← resolve?_asField]
  cases e.resolve? p with
  | none => simp
  | some c => simp [Node.scalarType?_eq_some_iff]

/-- The simple values of a record are those of the object that its entity declares. -/
theorem storesLeaf_iff {t : ScalarType} {leaf : Bson} :
    e.StoresLeaf r p t leaf ↔
      (Field.object e.members).Reaches (.document r) p (.scalar t) leaf := by
  rw [Field.reaches_iff, ← typeAt?_eq_some_iff]
  rfl

/-- A path to the same node leads to its type. -/
theorem follow?_of_typeAt? {t : ScalarType} (ht : e.typeAt? q = some t)
    (h : e.resolve? p = e.resolve? q) : (Field.object e.members).follow? p = some (.scalar t) := by
  rw [← typeAt?_eq_some_iff, typeAt?, h]
  exact ht

end Entity

end Docstore
