import Docstore.Proofs.Number.DecimalText
import Docstore.Proofs.Time.InstantText
import Docstore.Scalar.Cast

/-!
# Reading what was stored

* `ScalarType.cast_of_read` : a value that is stored and read denotes the same value again.

The text of a decimal is the one thing that need not be read back: a zero loses its sign
(`Decimal.ofText?_text_iff`).
-/

namespace Docstore

/-- No text of a decimal has blanks. -/
theorem Decimal.trimmed_text (d : Decimal) : ScalarType.trimmed d.text = d.text := by
  have hunsigned : ∀ c ∈ d.unsigned, Text.isBlank c = false := by
    intro c hc
    rcases mem_unsigned hc with rfl | hdigit
    · decide
    · exact Text.isBlank_of_isDigit hdigit
  unfold ScalarType.trimmed
  rw [Text.trim_eq_self, String.ofList_toList]
  intro c hc
  rw [toList_text] at hc
  split at hc
  · rcases List.mem_cons.1 hc with rfl | hc
    · decide
    · exact hunsigned c hc
  · exact hunsigned c hc

theorem ScalarType.trimmed_intText (n : Int) : trimmed (Text.intText n) = Text.intText n := by
  unfold trimmed Text.intText Text.intDigits
  rw [String.toList_ofList, Text.trim_eq_self]
  intro c hc
  have hnat : c ∈ Text.natDigits n.natAbs → Text.isBlank c = false := fun hc =>
    Text.isBlank_of_isDigit (Text.isDigit_of_mem_natDigits hc)
  split at hc
  · rcases List.mem_cons.1 hc with rfl | hc
    · rfl
    · exact hnat hc
  · exact hnat hc

namespace ScalarType

variable {t : ScalarType} {v j : Json} {c : Canonical}

theorem int64OfInt?_toInt (n : Int64) : Bson.int64OfInt? n.toInt = some n := by
  have hlow := n.le_toInt
  have hhigh := n.toInt_lt
  rw [Bson.int64OfInt?, if_pos (by omega), Int64.ofInt_toInt]

theorem int64OfText?_intText (n : Int64) : int64OfText? (Text.intText n.toInt) = some n := by
  rw [int64OfText?, Text.intText, String.toList_ofList, Text.intOfText?_intDigits]
  exact int64OfInt?_toInt n

/-- The text of an integer is that of no other integer of 128 bits. -/
theorem eq_of_int128OfText?_intText {n n' : Int} (h : int128OfText? (Text.intText n) = some n') :
    n = n' := by
  rw [int128OfText?, Text.intText, String.toList_ofList, Text.intOfText?_intDigits,
    Option.bind_some] at h
  split at h
  · exact Option.some.inj h
  · cases h

/-- Casting a value that is not null, and of no free-form type. -/
theorem cast_eq_ok_iff (ht : t ≠ .any) (hv : v ≠ .null) :
    t.cast v = .ok c ↔ t.canonical? v = some c := by
  unfold cast
  split
  · exact absurd rfl hv
  · exact absurd rfl ht
  · cases t.canonical? v <;> simp

/-- A free-form value that is not null is stored as it is. -/
theorem cast_any_eq_ok_iff (hv : v ≠ .null) :
    any.cast v = .ok c ↔ ∃ b, Bson.ofJson v = .ok b ∧ c = .any b := by
  cases hb : Bson.ofJson v with
  | ok b =>
    have hcast : any.cast v = .ok (.any b) := by cases v <;> simp_all [cast]
    simp [hcast, eq_comm]
  | error n =>
    have hcast : any.cast v = .error (.integerTooLarge n) := by cases v <;> simp_all [cast]
    simp [hcast]

/-- Free-form values are those of the free-form type. -/
theorem eq_any_of_cast {b : Bson} (h : t.cast v = .ok (.any b)) : t = .any := by
  by_cases ht : t = .any
  · exact ht
  by_cases hv : v = .null
  · subst hv
    rw [cast_null] at h
    cases h
  · rw [cast_eq_ok_iff ht hv] at h
    cases t with
    | any => rfl
    | _ => simp [canonical?] at h

theorem eq_bigDecimal_of_cast {d : Decimal} (ht : t ≠ .any) (h : t.cast v = .ok (.bigDecimal d)) :
    t = .bigDecimal := by
  by_cases hv : v = .null
  · subst hv
    rw [cast_null] at h
    cases h
  · rw [cast_eq_ok_iff ht hv] at h
    cases t with
    | bigDecimal => rfl
    | _ => simp [canonical?] at h

/-- Reading a stored value that is not null. -/
theorem read_eq_ok_iff {b : Bson} (hnull : b ≠ .null) (hundefined : b ≠ .undefined) :
    t.read b = .ok j ↔ t.json? b = some j := by
  unfold read
  split
  · exact absurd rfl hnull
  · exact absurd rfl hundefined
  · cases t.json? b <;> simp

/-- A stored decimal is read as the text of the decimal that its own text denotes. -/
theorem exists_of_read_bigDecimal {text : String} (h : bigDecimal.read (.string text) = .ok j) :
    ∃ d, Decimal.ofText? text = some d ∧ .string d.text = j :=
  Option.map_eq_some_iff.1 ((read_eq_ok_iff (by simp) (by simp)).1 h)

/-- A stored integer of any size is read as its text. -/
theorem of_read_bigInteger {n : Int} (h : bigInteger.read (.string (Text.intText n)) = .ok j) :
    int128OfText? (Text.intText n) = some n ∧ .string (Text.intText n) = j := by
  have hread : json? .bigInteger (.string (Text.intText n)) = some j :=
    (read_eq_ok_iff (by simp) (by simp)).1 h
  obtain ⟨n', hn', hj⟩ := Option.map_eq_some_iff.1 hread
  obtain rfl : n = n' := eq_of_int128OfText?_intText hn'
  exact ⟨hn', hj⟩

/-- A value that is stored and read denotes the same value again, if its text is read back where
it is a decimal. -/
theorem cast_of_read (ht : t ≠ .any)
    (hdecimal : ∀ d, c = .bigDecimal d → Decimal.ofText? d.text = some d) (hc : t.cast v = .ok c)
    (hj : t.read c.stored = .ok j) : t.cast j = .ok c := by
  by_cases hv : v = .null
  · subst hv
    obtain rfl : .null = c := Except.ok.inj ((cast_null t).symm.trans hc)
    obtain rfl : .null = j := Except.ok.inj hj
    exact cast_null t
  rw [cast_eq_ok_iff ht hv] at hc
  cases t with
  | any => exact absurd rfl ht
  | string =>
    obtain ⟨s, -, rfl⟩ := Option.map_eq_some_iff.1 hc
    obtain rfl : .string s = j := Except.ok.inj hj
    rfl
  | integer =>
    obtain ⟨n, -, rfl⟩ := Option.map_eq_some_iff.1 hc
    obtain rfl : .int n.toInt = j := Except.ok.inj hj
    rw [cast_eq_ok_iff ht (by simp), canonical?, castInteger?, int64OfInt?_toInt]
    rfl
  | double =>
    obtain ⟨x, -, rfl⟩ := Option.map_eq_some_iff.1 hc
    cases x with
    | finite x =>
      -- Only finite doubles have a JSON form.
      obtain rfl : .double x = j := Except.ok.inj hj
      rfl
    | _ => cases hj
  | boolean =>
    obtain ⟨b, -, rfl⟩ := Option.map_eq_some_iff.1 hc
    obtain rfl : .bool b = j := Except.ok.inj hj
    rfl
  | bigDecimal =>
    obtain ⟨d, -, rfl⟩ := Option.map_eq_some_iff.1 hc
    obtain ⟨d', hd', rfl⟩ := exists_of_read_bigDecimal hj
    have hd := hdecimal d rfl
    obtain rfl : d = d' := Option.some.inj (hd.symm.trans hd')
    rw [cast_eq_ok_iff ht (by simp), canonical?, castDecimal?, Decimal.trimmed_text, hd]
    rfl
  | bigInteger =>
    obtain ⟨n, -, rfl⟩ := Option.map_eq_some_iff.1 hc
    obtain ⟨hstored, rfl⟩ := of_read_bigInteger hj
    rw [cast_eq_ok_iff ht (by simp), canonical?, castBigInteger?, trimmed_intText, hstored]
    rfl
  | date =>
    obtain ⟨millis, -, rfl⟩ := Option.map_eq_some_iff.1 hc
    have hread : json? .date (.date millis) = some j := (read_eq_ok_iff (by simp) (by simp)).1 hj
    obtain ⟨s, hs, rfl⟩ := Option.map_eq_some_iff.1 hread
    rw [cast_eq_ok_iff ht (by simp), canonical?, castDate?, Instant.ofText?_text? hs]
    rfl

end ScalarType

end Docstore
