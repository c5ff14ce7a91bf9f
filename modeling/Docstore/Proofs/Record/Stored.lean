import Docstore.Proofs.Record.Encoding
import Docstore.Proofs.Record.Merging

/-!
# Stored values

What the values of a record look like after any number of replacements.

* `Mapper.Stored` : declared values are encoded ones, and undeclared names may stand beside them
  but not in the elements of arrays;
* `Mapper.Encodes.stored` : encoding gives stored values;
* `Mapper.Stored.merge` : merging with an old record keeps them.
-/

namespace Docstore

namespace Json

theorem AllWellFormed.getElem? {items : List Json} (h : AllWellFormed items) {i : Nat}
    {item : Json} (hi : items[i]? = some item) : item.WellFormed := by
  induction items generalizing i with
  | nil => cases hi
  | cons first rest ih =>
    cases i with
    | zero =>
      obtain rfl : first = item := Option.some.inj hi
      exact h.1
    | succ i => exact ih h.2 hi

theorem MembersWellFormed.of_mem {members : List (String × Json)} (h : MembersWellFormed members)
    {name : String} {v : Json} (hmem : (name, v) ∈ members) : v.WellFormed := by
  induction members with
  | nil => cases hmem
  | cons member rest ih =>
    rcases List.mem_cons.1 hmem with rfl | hmem
    · exact h.1
    · exact ih h.2 hmem

end Json

namespace Mapper

variable {m : Mapper} {path : Path} {f : Field} {v : Json} {b : Bson}

/-- A stored value of a field at `path`. Documents have distinct names, and undeclared ones only
where `opened` is set, which it is not inside arrays. -/
inductive Stored (m : Mapper) : Bool → Path → Field → Bson → Prop
  | scalar {opened : Bool} {path : Path} {t : ScalarType} {v : Json} {b : Bson}
      (h : m.encodeScalar t path v = .ok b) : Stored m opened path (.scalar t) b
  | null {opened : Bool} {path : Path} {f : Field} (h : ∀ entity, f ≠ .reference entity) :
      Stored m opened path f .null
  | object {opened : Bool} {path : Path} {members : Members} {r : Record} (distinct : r.Distinct)
      (closed : opened = false → ∀ name, members.get? name = none → Fields.get? name r = none)
      (below : ∀ name f b, members.get? name = some f → Fields.get? name r = some b →
        Stored m opened (path.child (.name name)) f b) :
      Stored m opened path (.object members) (.document r)
  | scalarArray {opened : Bool} {path : Path} {t : ScalarType} {stored : List Bson}
      (below : ∀ (i : Nat) b, stored[i]? = some b →
        Stored m false (path.child (.index i)) (.scalar t) b) :
      Stored m opened path (.scalarArray t) (.array stored)
  | objectArray {opened : Bool} {path : Path} {members : Members} {stored : List Bson}
      (below : ∀ (i : Nat) b, stored[i]? = some b →
        Stored m false (path.child (.index i)) (.object members) b) :
      Stored m opened path (.objectArray members) (.array stored)

/-- Encoding a parsed document gives stored values without undeclared names. -/
theorem Encodes.stored (h : m.Encodes path f v b) (hv : v.WellFormed) :
    m.Stored false path f b := by
  induction h with
  | scalar h => exact .scalar h
  | null h => exact .null h
  | @object path members d r hkeys hdeclared hbelow ih =>
    have hdistinct : Fields.Distinct r := by
      rw [Fields.Distinct, hkeys]
      exact hv.1
    refine .object hdistinct (fun _ name hnone => ?_) fun name f b hf hb => ?_
    · rw [Fields.get?_eq_none_iff_of_keys hkeys, Fields.get?_eq_none_iff]
      exact fun hmem => hdeclared name hmem hnone
    · obtain ⟨v, hvalue⟩ := Fields.exists_get?_of_keys hkeys hb
      exact ih name f v b hf hvalue hb (hv.2.of_mem (Fields.mem_of_get?_eq_some hvalue))
  | @scalarArray path t items stored hlength hbelow ih =>
    refine .scalarArray fun i b hb => ?_
    obtain ⟨v, hi⟩ := getElem?_of_length hlength.symm hb
    exact ih i v b hi hb (hv.getElem? hi)
  | @objectArray path members items stored hlength hbelow ih =>
    refine .objectArray fun i b hb => ?_
    obtain ⟨v, hi⟩ := getElem?_of_length hlength.symm hb
    exact ih i v b hi hb (hv.getElem? hi)

namespace Stored

/-- Undeclared names may be allowed. -/
theorem opened {o : Bool} (h : m.Stored o path f b) : m.Stored true path f b := by
  induction h with
  | scalar h => exact .scalar h
  | null h => exact .null h
  | object distinct _ _ ih => exact .object distinct nofun ih
  | scalarArray below _ => exact .scalarArray below
  | objectArray below _ => exact .objectArray below

/-- An undeclared name does no harm where it is allowed. -/
theorem insert_undeclared {members : Members} {r : Record} {name : String}
    (h : m.Stored true path (.object members) (.document r)) (hname : members.get? name = none)
    (value : Bson) : m.Stored true path (.object members) (.document (r.insert name value)) := by
  cases h with
  | object distinct _ below =>
    refine .object (Fields.distinct_insert distinct name value) nofun fun key f b hf hb => ?_
    have hne : name ≠ key := by
      rintro rfl
      rw [hname] at hf
      cases hf
    rw [Fields.get?_insert_of_ne hne] at hb
    exact below key f b hf hb

/-- A declared member may be replaced by another stored value. -/
theorem insert_declared {members : Members} {r : Record} {name : String} {value : Bson}
    (h : m.Stored true path (.object members) (.document r)) (hname : members.get? name = some f)
    (hvalue : m.Stored true (path.child (.name name)) f value) :
    m.Stored true path (.object members) (.document (r.insert name value)) := by
  cases h with
  | object distinct _ below =>
    refine .object (Fields.distinct_insert distinct name value) nofun fun key g b hg hb => ?_
    by_cases hkey : name = key
    · subst hkey
      rw [Fields.get?_insert_self] at hb
      obtain rfl : value = b := Option.some.inj hb
      obtain rfl : f = g := Option.some.inj (hname.symm.trans hg)
      exact hvalue
    · rw [Fields.get?_insert_of_ne hkey] at hb
      exact below key g b hg hb

theorem mergeInvariant (m : Mapper) : Members.MergeInvariant fun (path : Path) members r =>
    m.Stored true path (.object members) (.document r) where
  undeclared := insert_undeclared
  declared := by
    intro path declared members r nested name h hname hnested
    refine ⟨path.child (.name name), ?_, fun _ => h.insert_declared hname⟩
    cases h with
    | object _ _ below => exact below name _ _ hname hnested

/-- Merging with an old record keeps values stored. -/
theorem merge {members : Members} {new : Record}
    (h : m.Stored true path (.object members) (.document new)) (old : Record) :
    m.Stored true path (.object members) (.document (Members.merge members old new)) :=
  (mergeInvariant m).merge old h

end Stored

end Mapper

end Docstore
