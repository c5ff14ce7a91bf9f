import Docstore.Proofs.Identifier
import Docstore.Proofs.Number.DoubleText

/-!
# Which values can be read back

Every value has a stored form, but not every stored form can be read.

* `Canonical.storedAs` : the stored form of a value, as an identifier or not;
* `Canonical.Legible` : the values whose stored form can be read;
* `ScalarType.exists_read_storedAs_iff` : they are exactly those.
-/

namespace Docstore

namespace Canonical

/-- The stored form of a value; an identifier takes its one form. -/
def storedAs (identifier : Bool) (c : Canonical) : Bson :=
  if identifier then c.stored.asIdentifier else c.stored

/-- The value can be read from its stored form. Numbers that are stored as identifiers must not
have the text of an object identifier. -/
def Legible (identifier : Bool) : Canonical → Prop
  | .boolean _ => identifier = false
  | .double x =>
    (∃ y, x = .finite y) ∧ (identifier = true → ObjectId.ofText? (x.text Bson.layout) = none)
  | .bigDecimal d => identifier = true → ObjectId.ofText? d.text = none
  | .bigInteger n => identifier = true → ObjectId.ofText? (Text.intText n) = none
  | .date millis =>
    identifier = true ∨ Instant.hasShortYear (Instant.clock millis.toInt).date.year = true
  | _ => True

end Canonical

namespace ScalarType

variable {t : ScalarType} {v : Json} {c : Canonical} {identifier : Bool}

/-! ### Identifiers -/

/-- A type that reads no object identifier reads the identifiers that stay text. -/
theorem exists_read_identifierOfText_iff (ht : ∀ id, t.json? (.objectId id) = none)
    {text : String} :
    (∃ j, t.read (Bson.identifierOfText text) = .ok j) ↔
      ObjectId.ofText? text = none ∧ ∃ j, t.json? (.string text) = some j := by
  unfold Bson.identifierOfText
  cases hid : ObjectId.ofText? text with
  | none => simp [read_eq_ok_iff]
  | some id => simp [read_eq_ok_iff, ht]

/-- No text of a date is an object identifier. -/
theorem identifierOfText_date (text : String) :
    Bson.identifierOfText ("DateTime(" ++ text ++ ")") = .string ("DateTime(" ++ text ++ ")") := by
  have hnone : ObjectId.ofText? ("DateTime(" ++ text ++ ")") = none := by
    rw [ObjectId.ofText?, String.toList_append, String.toList_append]
    rfl
  rw [Bson.identifierOfText, hnone]

/-! ### Values of each type -/

theorem exists_read_any (b : Bson) : ∃ j, any.read b = .ok j := by
  cases b <;> exact ⟨_, rfl⟩

theorem exists_read_string (s : String) :
    ∃ j, string.read ((Canonical.string s).storedAs identifier) = .ok j := by
  cases identifier with
  | false => exact ⟨_, rfl⟩
  | true =>
    have hform : (Canonical.string s).storedAs true = Bson.identifierOfText s := rfl
    rw [hform, Bson.identifierOfText]
    cases ObjectId.ofText? s <;> exact ⟨_, rfl⟩

theorem exists_read_integer (n : Int64) :
    ∃ j, integer.read ((Canonical.integer n).storedAs identifier) = .ok j := by
  cases identifier with
  | false => exact ⟨_, rfl⟩
  | true =>
    have hform : (Canonical.integer n).storedAs true = .string (Text.intText n.toInt) :=
      Bson.asIdentifier_int64 n
    rw [hform]
    simp [read_eq_ok_iff, json?, readInteger?, int64OfText?_intText]

theorem exists_read_boolean_iff (b : Bool) :
    (∃ j, boolean.read ((Canonical.boolean b).storedAs identifier) = .ok j) ↔
      identifier = false := by
  cases identifier with
  | false => simp [Canonical.storedAs, Canonical.stored, read_eq_ok_iff, json?, readBoolean?]
  | true =>
    -- The text of a truth value is one that no truth value is read from.
    have hform : (Canonical.boolean b).storedAs true = .string (Bson.boolText b) := by
      cases b <;> rfl
    simp [hform, read_eq_ok_iff, json?, readBoolean?]

theorem json?_double_text_iff (x : Double) :
    (∃ j, json? .double (.string (x.text Bson.layout)) = some j) ↔ ∃ y, x = .finite y := by
  rw [json?, readDouble?]
  cases x with
  | finite x =>
    obtain ⟨y, hy⟩ := x.exists_ofText?_text
    rw [Double.text, hy]
    exact ⟨fun _ => ⟨x, rfl⟩, fun _ => ⟨.double y, rfl⟩⟩
  | infinity negative =>
    have htext : Double.ofText? ((Double.infinity negative).text Bson.layout) =
        some (.infinity negative) := by
      cases negative <;> decide
    simp [htext, doubleJson?]
  | nan negative =>
    have htext : Double.ofText? ((Double.nan negative).text Bson.layout) = some (.nan false) := by
      cases negative <;> decide
    simp [htext, doubleJson?]

theorem exists_read_double_iff (x : Double) :
    (∃ j, double.read ((Canonical.double x).storedAs identifier) = .ok j) ↔
      (Canonical.double x).Legible identifier := by
  cases identifier with
  | false =>
    cases x <;> simp [Canonical.storedAs, Canonical.stored, Canonical.Legible, read_eq_ok_iff,
      json?, readDouble?, doubleJson?]
  | true =>
    -- Whether it is finite is seen from the text as well.
    have hform : (Canonical.double x).storedAs true =
      Bson.identifierOfText (x.text Bson.layout) := rfl
    rw [hform, exists_read_identifierOfText_iff fun _ => rfl, json?_double_text_iff,
      Canonical.Legible, and_comm]
    simp

theorem exists_read_bigDecimal_iff (d : Decimal) :
    (∃ j, bigDecimal.read ((Canonical.bigDecimal d).storedAs identifier) = .ok j) ↔
      (Canonical.bigDecimal d).Legible identifier := by
  have htext : ∃ j, json? .bigDecimal (.string d.text) = some j := by
    rw [json?, decimalOfStored?, Decimal.ofText?_text]
    exact ⟨_, rfl⟩
  cases identifier with
  | false => simpa [Canonical.storedAs, Canonical.stored, Canonical.Legible, read_eq_ok_iff]
  | true =>
    have hform : (Canonical.bigDecimal d).storedAs true = Bson.identifierOfText d.text := rfl
    rw [hform, exists_read_identifierOfText_iff fun _ => rfl, Canonical.Legible]
    simp [htext]

/-- An integer that is cast has at most 128 bits. -/
theorem int128OfText?_of_castBigInteger? {n : Int} (hv : v.WellFormed)
    (h : castBigInteger? v = some n) : int128OfText? (Text.intText n) = some n := by
  have hrange : -0x80000000000000000000000000000000 ≤ n ∧
      n < 0x80000000000000000000000000000000 := by
    cases v with
    | int m =>
      obtain rfl := Option.some.inj h
      obtain ⟨hlow, hhigh⟩ : Json.IntInRange m := hv
      omega
    | string s =>
      obtain ⟨m, -, hm⟩ := Option.bind_eq_some_iff.1 h
      by_cases hrange : -0x80000000000000000000000000000000 ≤ m ∧
          m < 0x80000000000000000000000000000000
      · rw [if_pos hrange] at hm
        obtain rfl := Option.some.inj hm
        exact hrange
      · rw [if_neg hrange] at hm
        cases hm
    | _ => cases h
  rw [int128OfText?, Text.intText, String.toList_ofList, Text.intOfText?_intDigits,
    Option.bind_some, if_pos hrange]

theorem exists_read_bigInteger_iff {n : Int} (h : int128OfText? (Text.intText n) = some n) :
    (∃ j, bigInteger.read ((Canonical.bigInteger n).storedAs identifier) = .ok j) ↔
      (Canonical.bigInteger n).Legible identifier := by
  have htext : ∃ j, json? .bigInteger (.string (Text.intText n)) = some j := by
    rw [json?, bigIntegerOfStored?, h]
    exact ⟨_, rfl⟩
  cases identifier with
  | false => simpa [Canonical.storedAs, Canonical.stored, Canonical.Legible, read_eq_ok_iff]
  | true =>
    have hform : (Canonical.bigInteger n).storedAs true =
      Bson.identifierOfText (Text.intText n) := rfl
    rw [hform, exists_read_identifierOfText_iff fun _ => rfl, Canonical.Legible]
    simp [htext]

theorem exists_read_date_iff (millis : Int64) :
    (∃ j, date.read ((Canonical.date millis).storedAs identifier) = .ok j) ↔
      (Canonical.date millis).Legible identifier := by
  cases identifier with
  | false =>
    simp [Canonical.storedAs, Canonical.stored, Canonical.Legible, read_eq_ok_iff, json?, readDate?,
      Instant.text?]
  | true =>
    -- The text of a date is read as it is.
    have hform : (Canonical.date millis).storedAs true =
      .string ("DateTime(" ++ Bson.quoted (Instant.longText millis.toInt) ++ ")") :=
        identifierOfText_date _
    simp [hform, Canonical.Legible, read_eq_ok_iff, json?, readDate?]

/-- A value that was cast can be read from its stored form exactly when it is legible. -/
theorem exists_read_storedAs_iff (hv : v.WellFormed) (hc : t.cast v = .ok c) :
    (∃ j, t.read (c.storedAs identifier) = .ok j) ↔ c.Legible identifier := by
  by_cases hnull : v = .null
  · subst hnull
    obtain rfl : .null = c := Except.ok.inj ((cast_null t).symm.trans hc)
    cases identifier <;> simp [Canonical.Legible, Canonical.storedAs, Canonical.stored,
      Bson.asIdentifier, read_null]
  by_cases hany : t = .any
  · subst hany
    obtain ⟨b, rfl⟩ : ∃ b, c = .any b := by
      unfold cast at hc
      split at hc
      · exact absurd rfl hnull
      · split at hc
        · exact ⟨_, (Except.ok.inj hc).symm⟩
        · cases hc
      · next _ hne => exact absurd rfl hne
    simp [Canonical.Legible, exists_read_any]
  rw [cast_eq_ok_iff hany hnull] at hc
  cases t with
  | any => exact absurd rfl hany
  | string =>
    obtain ⟨s, -, rfl⟩ := Option.map_eq_some_iff.1 hc
    simp [Canonical.Legible, exists_read_string]
  | integer =>
    obtain ⟨n, -, rfl⟩ := Option.map_eq_some_iff.1 hc
    simp [Canonical.Legible, exists_read_integer]
  | double =>
    obtain ⟨x, -, rfl⟩ := Option.map_eq_some_iff.1 hc
    exact exists_read_double_iff x
  | boolean =>
    obtain ⟨b, -, rfl⟩ := Option.map_eq_some_iff.1 hc
    exact exists_read_boolean_iff b
  | bigDecimal =>
    obtain ⟨d, -, rfl⟩ := Option.map_eq_some_iff.1 hc
    exact exists_read_bigDecimal_iff d
  | bigInteger =>
    obtain ⟨n, hn, rfl⟩ := Option.map_eq_some_iff.1 hc
    exact exists_read_bigInteger_iff (int128OfText?_of_castBigInteger? hv hn)
  | date =>
    obtain ⟨millis, -, rfl⟩ := Option.map_eq_some_iff.1 hc
    exact exists_read_date_iff millis

end ScalarType

end Docstore
