import Docstore.Proofs.Record.Decoding

/-!
# Records that agree on what is declared

* `Field.Lacks` : a name is missing or holds null;
* `Field.Agrees` : stored values that are the same as far as the declaration goes;
* `Field.Agrees.decodeMember_eq` : they decode to the same value, or fail for the same reason.

Decoding walks the declaration, so neither the order of names in a record nor the names that are
not declared decide what comes out, or which failure comes first.
-/

namespace Docstore.Field

/-- A name is missing or holds null. -/
def Lacks (r : Record) (name : String) : Prop := r.get? name = none ∨ r.get? name = some .null

/-- Stored values of a field that are the same as far as the declaration goes: documents lack the
same declared members and agree in the others, and arrays have the same length and agree element
by element. References are not stored, so that nothing is said about them. -/
inductive Agrees : Field → Bson → Bson → Prop
  | same (f : Field) (b : Bson) : Agrees f b b
  | object {members : Members} {r r' : Record}
      (lacks : ∀ name f, members.get? name = some f → (∀ entity, f ≠ .reference entity) →
        (Lacks r' name ↔ Lacks r name))
      (below : ∀ name f b b', members.get? name = some f → (∀ entity, f ≠ .reference entity) →
        Fields.get? name r = some b → Fields.get? name r' = some b' → Agrees f b b') :
      Agrees (.object members) (.document r) (.document r')
  | objectArray {members : Members} {items items' : List Bson}
      (length : items'.length = items.length)
      (below : ∀ (i : Nat) b b', items[i]? = some b → items'[i]? = some b' →
        Agrees (.object members) b b') :
      Agrees (.objectArray members) (.array items) (.array items')

variable {f : Field} {b b' : Bson} {r r' : Record}

theorem decodeMember_of_lacks {name : String} (h : Lacks r name) :
    f.decodeMember (r.get? name) = .ok (some .null) := by
  rcases h with h | h <;> rw [h] <;> rfl

/-- Records whose declared members decode alike decode alike. -/
theorem decodeMembers_congr {declared : Members}
    (h : ∀ name f, (name, f) ∈ declared → (∀ entity, f ≠ .reference entity) →
      f.decodeMember (r'.get? name) = f.decodeMember (r.get? name)) :
    decodeMembers declared r' = decodeMembers declared r := by
  induction declared with
  | nil => rfl
  | cons member rest ih =>
    obtain ⟨name, f⟩ := member
    have hrest := ih fun key g hmem => h key g (List.mem_cons_of_mem _ hmem)
    by_cases hf : ∃ entity, f = .reference entity
    · obtain ⟨entity, rfl⟩ := hf
      exact hrest
    · have hstored : ∀ entity, f ≠ .reference entity := fun entity e => hf ⟨entity, e⟩
      rw [decodeMembers_cons_eq hstored, decodeMembers_cons_eq hstored, hrest,
        h name f List.mem_cons_self hstored]

namespace Agrees

/-- Values that agree decode to the same value, or fail for the same reason. -/
theorem decodeMember_eq (h : Agrees f b b') (hd : f.DistinctNames) :
    f.decodeMember (some b') = f.decodeMember (some b) := by
  induction h with
  | same => rfl
  | @object members r r' lacks below ih =>
    rw [decodeMember_some (by simp), decodeMember_some (by simp), decode, decode,
      decodeMembers_congr fun name f hmem hstored => ?_]
    have hf := (Fields.get?_eq_some_iff_mem hd.1).2 hmem
    -- A name that is missing and one that holds null are read alike.
    by_cases hlacks : Lacks r name
    · rw [decodeMember_of_lacks hlacks, decodeMember_of_lacks ((lacks name f hf hstored).2 hlacks)]
    · have hlacks' : ¬ Lacks r' name := fun h => hlacks ((lacks name f hf hstored).1 h)
      cases hb : Fields.get? name r with
      | none => exact absurd (.inl hb) hlacks
      | some b =>
        cases hb' : Fields.get? name r' with
        | none => exact absurd (.inl hb') hlacks'
        | some b' => exact ih name f b b' hf hstored hb hb' (hd.2.of_mem hmem)
  | @objectArray members items items' length below ih =>
    have helements := (decodeElements_elementwise members).congr 0 length fun i b b' hb hb' => by
      rw [decodeElement, decodeElement, ih i b b' hb hb' hd]
    rw [decodeMember_some (by simp), decodeMember_some (by simp), decode, decode, helements]

end Agrees

end Docstore.Field
