import Docstore.Proofs.Identifier

/-!
# Spellings of identifiers

An identifier is recognized by its text, and an object identifier is written in letters of either
case.

* `ObjectId.Spells` : a text of exactly 24 hexadecimal digits;
* `Text.SameLetters` : two texts are equal up to the case of their letters;
* `ObjectId.map_toLower_of_ofText?` : the lower case of a spelling is the text of its identifier,
  so that two texts spell one identifier when they are equal up to case;
* `Bson.asIdentifier_canonical` : the stored form of identifiers is a canonical form.
-/

namespace Docstore

namespace Text

/-- A digit of either case. -/
def IsHexDigit (c : Char) : Prop :=
  ('0' ≤ c ∧ c ≤ '9') ∨ ('a' ≤ c ∧ c ≤ 'f') ∨ ('A' ≤ c ∧ c ≤ 'F')

/-- The texts are equal up to the case of their letters. -/
def SameLetters (s t : String) : Prop :=
  s.toList.map Char.toLower = t.toList.map Char.toLower

theorem isHexDigit_iff {c : Char} :
    IsHexDigit c ↔ (0x30 ≤ c.toNat ∧ c.toNat ≤ 0x39) ∨ (0x61 ≤ c.toNat ∧ c.toNat ≤ 0x66) ∨
      (0x41 ≤ c.toNat ∧ c.toNat ≤ 0x46) := by
  simp only [IsHexDigit, Char.le_def, UInt32.le_iff_toNat_le]
  rfl

theorem exists_hexValue?_iff {c : Char} : (∃ d, hexValue? c = some d) ↔ IsHexDigit c := by
  rw [isHexDigit_iff, hexValue?]
  split
  · simp_all
  · split
    · simp_all
    · split <;> simp_all

/-- The lower case of a digit is how its value is written. -/
theorem toLower_of_hexValue? {c : Char} {d : Fin 16} (h : hexValue? c = some d) :
    c.toLower = hexChar d := by
  have hall : ∀ (n : Fin 0x67) (d : Fin 16), hexValue? (Char.ofNat n) = some d →
      (Char.ofNat n).toLower = hexChar d := by decide
  have hdigit := isHexDigit_iff.1 (exists_hexValue?_iff.1 ⟨d, h⟩)
  have hc : Char.ofNat c.toNat = c := Char.ofNat_toNat c
  have hlower := hall ⟨c.toNat, by omega⟩ d
  rw [hc] at hlower
  exact hlower h

end Text

namespace ObjectId

variable {s t : String} {id : ObjectId}

/-- A text of exactly 24 hexadecimal digits. -/
def Spells (s : String) : Prop := s.length = 24 ∧ ∀ c ∈ s.toList, Text.IsHexDigit c

theorem exists_readDigits?_iff {cs : List Char} :
    (∃ ds, readDigits? cs = some ds) ↔ ∀ c ∈ cs, Text.IsHexDigit c := by
  induction cs with
  | nil => simp [readDigits?]
  | cons c rest ih =>
    rw [List.forall_mem_cons, ← ih, ← Text.exists_hexValue?_iff, readDigits?]
    cases Text.hexValue? c <;> cases readDigits? rest <;> simp

theorem exists_ofText?_iff : (∃ id, ofText? s = some id) ↔ Spells s := by
  rw [Spells, ← exists_readDigits?_iff, ofText?]
  cases h : readDigits? s.toList with
  | none => simp
  | some ds =>
    have hlength : ds.length = s.length := length_readDigits? h
    rw [Option.bind_some, ofDigits?, ← hlength]
    by_cases h24 : ds.length = 24 <;> simp [h24]

theorem ofText?_eq_none_iff : ofText? s = none ↔ ¬ Spells s := by
  rw [← exists_ofText?_iff, Option.eq_none_iff_forall_ne_some, not_exists]

theorem isObjectId_iff : isObjectId s = true ↔ Spells s := by
  rw [isObjectId, Option.isSome_iff_exists, exists_ofText?_iff]

theorem map_toLower_of_readDigits? {cs : List Char} {ds : List (Fin 16)}
    (h : readDigits? cs = some ds) : cs.map Char.toLower = ds.map Text.hexChar := by
  induction cs generalizing ds with
  | nil =>
    cases h
    rfl
  | cons c rest ih =>
    obtain ⟨d, hd, hrest⟩ := Option.bind_eq_some_iff.1 h
    obtain ⟨ds', hds, heq⟩ := Option.bind_eq_some_iff.1 hrest
    cases heq
    rw [List.map_cons, List.map_cons, Text.toLower_of_hexValue? hd, ih hds]

/-- The lower case of a spelling is the text of its identifier. -/
theorem map_toLower_of_ofText? (h : ofText? s = some id) :
    s.toList.map Char.toLower = id.text.toList := by
  obtain ⟨ds, hds, hid⟩ := Option.bind_eq_some_iff.1 h
  rw [ofDigits?] at hid
  split at hid
  · obtain rfl := Option.some.inj hid
    rw [text, String.toList_ofList]
    exact map_toLower_of_readDigits? hds
  · cases hid

theorem text_injective {id id' : ObjectId} (h : id.text = id'.text) : id = id' := by
  have hread := congrArg ofText? h
  simpa [ofText?_text] using hread

/-- Spellings of one identifier are equal up to case, and no others are. -/
theorem eq_iff_sameLetters {id' : ObjectId} (hs : ofText? s = some id) (ht : ofText? t = some id') :
    id = id' ↔ Text.SameLetters s t := by
  rw [Text.SameLetters, map_toLower_of_ofText? hs, map_toLower_of_ofText? ht, String.toList_inj]
  exact ⟨congrArg text, text_injective⟩

end ObjectId

namespace Bson

theorem asIdentifier_string (s : String) : (Bson.string s).asIdentifier = identifierOfText s := rfl

theorem asIdentifier_identifierOfText (s : String) :
    (identifierOfText s).asIdentifier = identifierOfText s := by
  unfold identifierOfText
  cases h : ObjectId.ofText? s with
  | some id => rfl
  | none => simp [asIdentifier_string, identifierOfText, h]

theorem asIdentifier_cases (v : Bson) :
    v.asIdentifier = .null ∨ (∃ id, v.asIdentifier = .objectId id) ∨
      v.asIdentifier = identifierOfText v.identifierText := by
  cases v <;> simp [asIdentifier]

/-- An identifier that has its stored form keeps it. -/
theorem asIdentifier_asIdentifier (v : Bson) : v.asIdentifier.asIdentifier = v.asIdentifier := by
  rcases asIdentifier_cases v with h | ⟨id, h⟩ | h
  · rw [h]
    rfl
  · rw [h]
    rfl
  · rw [h, asIdentifier_identifierOfText]

/-- A text that spells an identifier is stored as it. -/
theorem exists_asIdentifier_of_spells {s : String} (h : ObjectId.Spells s) :
    ∃ id, ObjectId.ofText? s = some id ∧ (Bson.string s).asIdentifier = .objectId id := by
  obtain ⟨id, hid⟩ := ObjectId.exists_ofText?_iff.2 h
  rw [asIdentifier_string, identifierOfText, hid]
  exact ⟨id, rfl, rfl⟩

/-- Any other text is stored as it is. -/
theorem asIdentifier_of_not_spells {s : String} (h : ¬ ObjectId.Spells s) :
    (Bson.string s).asIdentifier = .string s := by
  rw [asIdentifier_string, identifierOfText, ObjectId.ofText?_eq_none_iff.2 h]

/-- Two texts are one identifier when they are equal, or spell it in letters of different case. -/
theorem asIdentifier_string_eq_iff (s t : String) :
    (Bson.string s).asIdentifier = (Bson.string t).asIdentifier ↔
      s = t ∨ (ObjectId.Spells s ∧ ObjectId.Spells t ∧ Text.SameLetters s t) := by
  by_cases hs : ObjectId.Spells s
  · obtain ⟨id, hid, hforms⟩ := exists_asIdentifier_of_spells hs
    by_cases ht : ObjectId.Spells t
    · obtain ⟨id', hid', hformt⟩ := exists_asIdentifier_of_spells ht
      rw [hforms, hformt, Bson.objectId.injEq, ObjectId.eq_iff_sameLetters hid hid']
      refine ⟨fun h => .inr ⟨hs, ht, h⟩, ?_⟩
      rintro (rfl | ⟨-, -, h⟩)
      · rfl
      · exact h
    · have hne : s ≠ t := by
        rintro rfl
        exact ht hs
      simp [hforms, asIdentifier_of_not_spells ht, ht, hne]
  · by_cases ht : ObjectId.Spells t
    · obtain ⟨id', -, hformt⟩ := exists_asIdentifier_of_spells ht
      have hne : s ≠ t := by
        rintro rfl
        exact hs ht
      simp [hformt, asIdentifier_of_not_spells hs, hs, hne]
    · simp [asIdentifier_of_not_spells hs, asIdentifier_of_not_spells ht, hs]

/-- **The stored form of identifiers is a canonical form.** It is kept by storing it again; a text
is an object identifier, and is stored as one, when it is exactly 24 hexadecimal digits, and stays
itself otherwise; two texts have one stored form when they are equal, or spellings that differ in
case only; and the text that is read from a stored identifier is stored as the same one. -/
theorem asIdentifier_canonical :
    (∀ v : Bson, v.asIdentifier.asIdentifier = v.asIdentifier) ∧
    (∀ s, (isObjectId s = true ↔ ObjectId.Spells s) ∧
      ((∃ id, (Bson.string s).asIdentifier = .objectId id) ↔ ObjectId.Spells s) ∧
      ((Bson.string s).asIdentifier = .string s ↔ ¬ ObjectId.Spells s)) ∧
    (∀ s t, (Bson.string s).asIdentifier = (Bson.string t).asIdentifier ↔
      s = t ∨ (ObjectId.Spells s ∧ ObjectId.Spells t ∧ Text.SameLetters s t)) ∧
    ∀ s, ∃ read, ScalarType.string.read (Bson.string s).asIdentifier = .ok (.string read) ∧
      (Bson.string read).asIdentifier = (Bson.string s).asIdentifier := by
  refine ⟨asIdentifier_asIdentifier, fun s => ?_, asIdentifier_string_eq_iff, fun s => ?_⟩
  · refine ⟨ObjectId.isObjectId_iff, ?_⟩
    by_cases hs : ObjectId.Spells s
    · obtain ⟨id, -, hform⟩ := exists_asIdentifier_of_spells hs
      simp [hform, hs]
    · simp [asIdentifier_of_not_spells hs, hs]
  · by_cases hs : ObjectId.Spells s
    · obtain ⟨id, -, hform⟩ := exists_asIdentifier_of_spells hs
      refine ⟨id.text, by rw [hform]; rfl, ?_⟩
      rw [hform, asIdentifier_string, identifierOfText, ObjectId.ofText?_text]
    · exact ⟨s, by rw [asIdentifier_of_not_spells hs]; rfl, rfl⟩

/-- Two spellings of one identifier, and a text that is one digit too long. -/
example :
    (Bson.string "507F1F77bcf86cd799439011").asIdentifier =
        (Bson.string "507f1f77bcf86cd799439011").asIdentifier ∧
      (Bson.string "507f1f77bcf86cd7994390110").asIdentifier =
        .string "507f1f77bcf86cd7994390110" :=
  ⟨rfl, rfl⟩

end Bson

end Docstore
