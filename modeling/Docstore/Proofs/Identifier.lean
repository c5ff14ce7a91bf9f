import Docstore.Identifier
import Docstore.Proofs.Scalar.RoundTrip

/-!
# The form of identifiers

* `Bson.asIdentifier_form` : null, an object identifier or text;
* `Bson.asIdentifier_int64` : an integer identifier is stored as its text;
* `ScalarType.cast_of_read_asIdentifier` : an identifier that is read takes its form again.
-/

namespace Docstore

/-- An identifier is stored as null, an object identifier or text. -/
theorem Bson.asIdentifier_form (b : Bson) :
    b.asIdentifier = .null ∨ (∃ id, b.asIdentifier = .objectId id) ∨
      ∃ text, b.asIdentifier = .string text := by
  have htext : ∀ text, (∃ id, identifierOfText text = .objectId id) ∨
      ∃ text', identifierOfText text = .string text' := by
    intro text
    unfold identifierOfText
    split
    · exact .inl ⟨_, rfl⟩
    · exact .inr ⟨_, rfl⟩
  unfold asIdentifier
  split
  · exact .inl rfl
  · exact .inl rfl
  · exact .inr (.inl ⟨_, rfl⟩)
  · exact .inr (htext _)

/-! ### Integers -/

theorem ObjectId.length_readDigits? {cs : List Char} {ds : List (Fin 16)}
    (h : readDigits? cs = some ds) : ds.length = cs.length := by
  induction cs generalizing ds with
  | nil =>
    cases h
    rfl
  | cons c cs ih =>
    obtain ⟨d, -, hrest⟩ := Option.bind_eq_some_iff.1 h
    obtain ⟨ds', hds, heq⟩ := Option.bind_eq_some_iff.1 hrest
    cases heq
    rw [List.length_cons, List.length_cons, ih hds]

theorem Text.length_intDigits (n : Int64) : (intDigits n.toInt).length ≤ 20 := by
  have hlow := n.le_toInt
  have hhigh := n.toInt_lt
  have hdigits : (natDigits n.toInt.natAbs).length ≤ 19 :=
    (Nat.length_toDigits_le_iff (by decide) (by decide)).2 (by omega)
  unfold intDigits
  split
  · rw [List.length_cons]
    omega
  · omega

/-- The text of an integer is too short for an object identifier. -/
theorem ObjectId.ofText?_intText (n : Int64) : ofText? (Text.intText n.toInt) = none := by
  rw [ofText?, Text.intText, String.toList_ofList]
  cases h : readDigits? (Text.intDigits n.toInt) with
  | none => rfl
  | some ds =>
    have hlength := length_readDigits? h
    have hshort := Text.length_intDigits n
    rw [Option.bind_some, ofDigits?, dif_neg (by omega)]

/-- An integer identifier is stored as its text. -/
theorem Bson.asIdentifier_int64 (n : Int64) :
    (Bson.int64 n).asIdentifier = .string (Text.intText n.toInt) := by
  have hform : (Bson.int64 n).asIdentifier = identifierOfText (Text.intText n.toInt) := rfl
  rw [hform, identifierOfText, ObjectId.ofText?_intText]
/-! ### Reading identifiers -/

/-- Reading an identifier and giving it its form again leads back to it. -/
theorem ScalarType.cast_of_read_asIdentifier {t : ScalarType} {v j : Json} {c : Canonical}
    (ht : t = .string ∨ t = .integer) (hc : t.cast v = .ok c)
    (hj : t.read c.stored.asIdentifier = .ok j) :
    ∃ c', t.cast j = .ok c' ∧ c'.stored.asIdentifier = c.stored.asIdentifier := by
  by_cases hv : v = .null
  · subst hv
    obtain rfl : .null = c := Except.ok.inj ((cast_null t).symm.trans hc)
    obtain rfl : .null = j := Except.ok.inj hj
    exact ⟨.null, cast_null t, rfl⟩
  rcases ht with rfl | rfl
  · rw [cast_eq_ok_iff (by simp) hv] at hc
    obtain ⟨s, -, rfl⟩ := Option.map_eq_some_iff.1 hc
    have hform : (Canonical.string s).stored.asIdentifier = Bson.identifierOfText s := rfl
    rw [hform, Bson.identifierOfText] at hj
    cases hs : ObjectId.ofText? s with
    | none =>
      rw [hs] at hj
      obtain rfl : .string s = j := Except.ok.inj hj
      exact ⟨.string s, rfl, rfl⟩
    | some id =>
      rw [hs] at hj
      obtain rfl : .string id.text = j := Except.ok.inj hj
      refine ⟨.string id.text, rfl, ?_⟩
      have hform' : (Canonical.string id.text).stored.asIdentifier =
        Bson.identifierOfText id.text := rfl
      rw [hform, hform', Bson.identifierOfText, Bson.identifierOfText, ObjectId.ofText?_text, hs]
  · rw [cast_eq_ok_iff (by simp) hv] at hc
    obtain ⟨n, -, rfl⟩ := Option.map_eq_some_iff.1 hc
    have hform : (Canonical.integer n).stored.asIdentifier =
      .string (Text.intText n.toInt) := Bson.asIdentifier_int64 n
    rw [hform, read_eq_ok_iff (by simp) (by simp), json?, readInteger?,
      int64OfText?_intText] at hj
    obtain rfl : .int n.toInt = j := Option.some.inj hj
    refine ⟨.integer n, ?_, rfl⟩
    rw [cast_eq_ok_iff (by simp) (by simp), canonical?, castInteger?, int64OfInt?_toInt]
    rfl

end Docstore
