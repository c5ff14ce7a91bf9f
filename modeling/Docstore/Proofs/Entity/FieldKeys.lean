import Docstore.Proofs.Entity.Names

/-!
# Keys of fields

A native document names a field by a dotted key, and an operator by a name with a leading `$`.

* `IsFieldName` : a name that cannot be taken for anything but a member's;
* `IsFieldKey` : a dotted text of such names;
* `Entity.HasFieldNames` : every declared name is one;
* `Entity.isFieldKey_storageText` : then the key of every path to a field is a field key.
-/

namespace Docstore

/-- The name has the form of an operator's. -/
def isOperatorName (name : String) : Bool := name.toList.head? == some '$'

/-- The name is neither empty nor dotted nor that of an operator. -/
structure IsFieldName (name : String) : Prop where
  ne_empty : name ≠ ""
  dotFree : '.' ∉ name.toList
  not_operator : isOperatorName name = false

/-- Between the dots of the key are field names. -/
def IsFieldKey (key : String) : Prop := ∀ name ∈ Path.dottedNames key, IsFieldName name

/-- Every name on the way to a declared field is a field name. -/
def Entity.HasFieldNames (e : Entity) : Prop :=
  ∀ c ∈ e.fields, ∀ name, Segment.name name ∈ c.path → IsFieldName name

/-- No field key is the name of an operator. -/
theorem IsFieldKey.not_operator {key : String} (h : IsFieldKey key) :
    isOperatorName key = false := by
  rw [← Bool.not_eq_true]
  intro hkey
  obtain ⟨rest, hrest⟩ : ∃ rest, key.toList = '$' :: rest := by
    simpa [isOperatorName, List.head?_eq_some_iff] using hkey
  -- The first name between the dots begins as the key does.
  obtain ⟨part, hpart⟩ : ∃ part, '$' :: part ∈ Path.splitDots key.toList := by
    rw [hrest, Path.splitDots, if_neg (by decide)]
    split
    · exact ⟨_, List.mem_cons_self⟩
    · exact ⟨_, List.mem_cons_self⟩
  have hname := (h _ (List.mem_map_of_mem hpart)).not_operator
  simp [isOperatorName] at hname

/-- The digits of a number are a field name. -/
theorem isFieldName_natText (n : Nat) : IsFieldName (Text.natText n) := by
  have hdigit : ∀ c ∈ Text.natDigits n, c ≠ '.' ∧ c ≠ '$' := by
    intro c hc
    have hdigit := Text.isDigit_of_mem_natDigits hc
    constructor <;> (rintro rfl; revert hdigit; decide)
  have htext : (Text.natText n).toList = Text.natDigits n := String.toList_ofList
  constructor
  · intro hempty
    rw [hempty] at htext
    exact Text.natDigits_ne_nil n htext.symm
  · rw [htext]
    exact fun hmem => (hdigit _ hmem).1 rfl
  · rw [isOperatorName, htext, beq_eq_false_iff_ne]
    exact fun hhead => (hdigit _ (List.mem_of_head? hhead)).2 rfl

namespace Path

/-- A path that has names, and field names only, has a field key. -/
theorem isFieldKey_of_names {p : Path} (hsome : ∃ name, Segment.name name ∈ p)
    (h : ∀ name, Segment.name name ∈ p → IsFieldName name) : IsFieldKey p.storageText := by
  have hnames : ∀ name ∈ (p.filter fun s => !s.isAny).map Segment.text, IsFieldName name := by
    intro name hname
    obtain ⟨s, hs, rfl⟩ := List.mem_map.1 hname
    obtain ⟨hmem, hany⟩ := List.mem_filter.1 hs
    cases s with
    | name key => exact h key hmem
    | index i => exact isFieldName_natText i
    | any => cases hany
  have hne : (p.filter fun s => !s.isAny).map Segment.text ≠ [] := by
    obtain ⟨name, hname⟩ := hsome
    exact List.ne_nil_of_mem (List.mem_map_of_mem (List.mem_filter.2 ⟨hname, rfl⟩))
  rw [IsFieldKey, storageText, text,
    dottedNames_intercalate hne fun name hname => (hnames name hname).dotFree]
  exact hnames

end Path

/-- Below anything but an array a path begins with a name. -/
theorem Cursor.exists_name_mem_of_follow? {c c' : Cursor} {p : Path}
    (hc : c.node.isArray = false) (h : c.follow? p = some c') (hp : p ≠ []) :
    ∃ name, Segment.name name ∈ p := by
  cases p with
  | nil => exact absurd rfl hp
  | cons s rest =>
    obtain ⟨below, hstep, -⟩ := Option.bind_eq_some_iff.1 h
    have helement : c.element? ≠ some below := by
      obtain ⟨node, trail⟩ := c
      rcases node with (_ | _ | _ | _ | _) | _ | _
      case field.scalarArray => cases hc
      case field.objectArray => cases hc
      all_goals nofun
    cases s with
    | name key => exact ⟨key, List.mem_cons_self⟩
    | index i => exact absurd hstep helement
    | any => exact absurd hstep helement

/-- In an entity of field names a path from anywhere but an array has a field key. -/
theorem Entity.isFieldKey_storageText {e : Entity} {base p : Path} {context c : Cursor}
    (he : e.HasFieldNames) (hbase : e.resolve? base = some context)
    (hcontext : context.node.isArray = false) (h : context.follow? p = some c) (hp : p ≠ []) :
    IsFieldKey p.storageText := by
  have hname := Cursor.exists_name_mem_of_follow? hcontext h hp
  refine Path.isFieldKey_of_names hname fun name hmem => ?_
  have hresolve : e.resolve? (base ++ p) = some c := by
    rw [resolve?, Cursor.follow?_append]
    exact Option.bind_eq_some_iff.2 ⟨context, hbase, h⟩
  have hpath : c.path = Path.labels (base ++ p) := Cursor.path_of_follow? hresolve
  have hlabel : Segment.name name ∈ c.path := by
    rw [hpath, Path.labels]
    exact List.mem_map.2 ⟨.name name, List.mem_append_right _ hmem, rfl⟩
  rcases mem_fields_of_resolve? hresolve with rfl | hfields
  · cases hlabel
  · exact he c hfields name hlabel

end Docstore
