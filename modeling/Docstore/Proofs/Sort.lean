import Docstore.Proofs.Except
import Docstore.Proofs.Fields
import Docstore.Sort

/-!
# Directions of a sort order

The keys of a sort order are inserted one after another into fields that keep the place of a name.

* `SortOrder.entries` : the direction of every key, under its storage text;
* `SortOrder.native_eq` : a sort order has a native form unless a key is the root, and then it
  consists of these entries;
* `SortOrder.addKeys_append` : keys in a row are added in a row;
* `SortOrder.native_directions` : which fields are sorted by, in which order and direction.
-/

namespace Docstore

/-- Paths that differ in wildcards only have one storage text. -/
theorem Path.storageText_congr {p q : Path}
    (h : p.filter (fun s => !s.isAny) = q.filter fun s => !s.isAny) :
    p.storageText = q.storageText := congrArg text h

theorem SortKey.native_of_root {key : SortKey} (h : key.field = .root) :
    key.native = .error .emptySortKey := if_pos h

theorem SortKey.native_of_ne_root {key : SortKey} (h : key.field ≠ .root) :
    key.native = .ok (key.field.storageText, key.direction) := if_neg h

namespace SortOrder

/-- The direction of every key, in order. A field that is listed twice has two of them. -/
def entries (s : SortOrder) : List (String × Bson) :=
  s.map fun key => (key.field.storageText, key.direction)

theorem addKeys_eq (s : SortOrder) (directions : Record) :
    addKeys s directions =
      if ∃ key ∈ s, key.field = .root then .error .emptySortKey
      else .ok (directions.insertAll s.entries) := by
  induction s generalizing directions with
  | nil => simp [addKeys, entries, Fields.insertAll]
  | cons key rest ih =>
    by_cases hroot : key.field = .root
    · rw [addKeys, SortKey.native_of_root hroot, if_pos ⟨key, List.mem_cons_self, hroot⟩]
      rfl
    · have hrest : (∃ k ∈ key :: rest, k.field = .root) ↔ ∃ k ∈ rest, k.field = .root := by
        simp [hroot]
      rw [addKeys, SortKey.native_of_ne_root hroot]
      refine (ih _).trans ?_
      simp only [hrest]
      rfl

/-- A sort order has a native form unless a key is the root, and its entries are inserted in
order. -/
theorem native_eq (s : SortOrder) :
    s.native =
      if ∃ key ∈ s, key.field = .root then .error .emptySortKey
      else .ok (Fields.ofList s.entries) :=
  addKeys_eq s []

/-- Keys in a row are added in a row. -/
theorem addKeys_append (s t : SortOrder) (directions : Record) :
    addKeys (s ++ t) directions = addKeys s directions >>= addKeys t := by
  induction s generalizing directions with
  | nil => rfl
  | cons key rest ih =>
    rw [List.cons_append, addKeys, addKeys]
    cases key.native with
    | error e => rfl
    | ok entry => exact ih _

/-- Adding keys is inserting their native form. -/
theorem addKeys_eq_insertAll (s : SortOrder) (directions : Record) :
    addKeys s directions = do return directions.insertAll (← s.native) := by
  have hempty : Fields.Distinct ([] : Record) := List.nodup_nil
  rw [addKeys_eq, native_eq]
  split
  · rfl
  · exact congrArg Except.ok (Fields.insertAll_insertAll hempty directions s.entries).symm

/-- The fields that a sort order sorts by. It is refused exactly when a key is the root. Otherwise
there is one entry for each storage text of a key, in order of first use and with the direction of
the last key that has it; keys that differ in wildcards only have the same one. So the entries of
two sort orders in a row are those of the first one, updated with those of the second one. -/
theorem native_directions (s t : SortOrder) :
    ((∃ err, s.native = .error err ∧ err.code = "INVALID_FIELD") ↔ ∃ key ∈ s, key.field = .root) ∧
    ((∀ key ∈ s, key.field ≠ .root) → ∃ directions, s.native = .ok directions ∧
      directions.keys = (s.map fun key => key.field.storageText).eraseDups ∧
      directions.Distinct ∧
      ∀ text, directions.get? text =
        (s.filter fun key => key.field.storageText = text).getLast?.map SortKey.direction) ∧
    (∀ p q : Path, p.filter (fun s => !s.isAny) = q.filter (fun s => !s.isAny) →
      p.storageText = q.storageText) ∧
    native (s ++ t) = do
      let first ← s.native
      let second ← t.native
      return first.insertAll second := by
  refine ⟨?_, fun hkeys => ?_, fun _ _ => Path.storageText_congr, ?_⟩
  · rw [native_eq]
    split
    case isTrue hroot => exact iff_of_true ⟨_, rfl, rfl⟩ hroot
    case isFalse hroot => exact iff_of_false (fun ⟨_, herr, _⟩ => nomatch herr) hroot
  · have hroot : ¬ ∃ key ∈ s, key.field = .root := fun ⟨key, hmem, h⟩ => hkeys key hmem h
    refine ⟨_, by rw [native_eq, if_neg hroot], ?_, Fields.distinct_ofList _, fun text => ?_⟩
    · rw [Fields.keys_ofList, entries, List.map_map]
      rfl
    · rw [Fields.get?_ofList, entries, List.filter_map, List.getLast?_map, Option.map_map]
      rfl
  · have hsecond : addKeys t = fun first => do return first.insertAll (← t.native) :=
      funext (addKeys_eq_insertAll t)
    rw [native, addKeys_append, hsecond]
    rfl

/-- Three keys for two fields: the wildcard does not tell the first field from the third one, and a
key that is listed later turns the direction round but does not change the place. -/
theorem native_directions_rows :
    let p : Path := [.name "rows", .any, .name "price"]
    let q : Path := [.name "rows", .name "price"]
    let s : SortOrder := [⟨p, false⟩, ⟨[.name "title"], true⟩, ⟨q, true⟩]
    let t : SortOrder := [⟨[.name "size"], false⟩, ⟨[.name "title"], false⟩]
    (∀ key ∈ s, key.field ≠ .root) ∧ p.storageText = q.storageText ∧
      ∃ directions, s.native = .ok directions ∧
        directions.keys = ["rows.price", "title"] ∧
        directions.get? "rows.price" = some (.int32 (-1)) ∧
        native (s ++ t) =
          .ok [("rows.price", .int32 (-1)), ("title", .int32 1), ("size", .int32 1)] := by
  intro p q s t
  have hkeys : ∀ key ∈ s, key.field ≠ .root := by decide
  obtain ⟨-, hnative, htexts, happend⟩ := native_directions s t
  obtain ⟨directions, hdirections, hnames, -, hlast⟩ := hnative hkeys
  have hprice := hlast "rows.price"
  refine ⟨hkeys, htexts p q rfl, directions, hdirections, hnames.trans (by decide), ?_, ?_⟩
  · rw [hprice]
    rfl
  · rw [happend]
    rfl

end SortOrder

end Docstore
