import Docstore.Proofs.Text.Numerals
import Docstore.Proofs.Time.Calendar
import Docstore.Time.Instant

/-!
# Instants and their text

* `Instant.takeNumber?_padLeft`, `Instant.takeFraction?_fractionDigits` : the parts of the text
  are read back;
* `Instant.nanosOfText?_fields` : the reading of a text in UTC, from its parts;
* `Instant.ofText?_text?` : an instant is read back from its own text.
-/

namespace Docstore.Instant

theorem takeNumber?_padLeft {width n : Nat} (h : (Text.natDigits n).length ≤ width)
    (rest : List Char) :
    takeNumber? width (Text.padLeft width (Text.natDigits n) ++ rest) = some (n, rest) := by
  have hlength := Text.length_padLeft h
  have htake : (Text.padLeft width (Text.natDigits n) ++ rest).take width =
      Text.padLeft width (Text.natDigits n) := List.take_left' hlength
  have hdrop : (Text.padLeft width (Text.natDigits n) ++ rest).drop width = rest :=
    List.drop_left' hlength
  rw [takeNumber?, htake, hdrop, if_pos hlength, Text.natOfDigits?_padLeft]
  rfl

theorem takeNumber?_twoDigits {n : Nat} (h : n < 100) (rest : List Char) :
    takeNumber? 2 (twoDigits n ++ rest) = some (n, rest) :=
  takeNumber?_padLeft ((Nat.length_toDigits_le_iff (by decide) (by decide)).2 h) rest

/-- Milliseconds are read back from their digits as nanoseconds. -/
theorem takeFraction?_fractionDigits {n : Nat} (h0 : n ≠ 0) (h : n < 1000) :
    takeFraction? ('.' :: (fractionDigits n ++ ['Z'])) = some (n * 1000000, ['Z']) := by
  have hlength : (Text.padLeft 3 (Text.natDigits n)).length = 3 :=
    Text.length_padLeft ((Nat.length_toDigits_le_iff (by decide) (by decide)).2 h)
  obtain ⟨k, hk⟩ := Text.eq_dropTrailingZeros_append (Text.padLeft 3 (Text.natDigits n))
  change _ = fractionDigits n ++ _ at hk
  have hdigits : ∀ c ∈ fractionDigits n, c.isDigit = true := fun c hc =>
    Text.all_isDigit_padLeft 3 n c (hk ▸ List.mem_append_left _ hc)
  have hvalue : Nat.ofDigitChars 10 (fractionDigits n ++ List.replicate k '0') 0 = n := by
    rw [← hk, Text.ofDigitChars_padLeft]
  have hne : fractionDigits n ≠ [] := by
    intro hnil
    rw [hnil, List.nil_append, Nat.ofDigitChars_replicate_zero, Nat.mul_zero] at hvalue
    exact h0 hvalue.symm
  have htake : (fractionDigits n ++ ['Z']).takeWhile Char.isDigit = fractionDigits n := by
    rw [List.takeWhile_append_of_pos hdigits]
    exact List.append_nil _
  have hdrop : (fractionDigits n ++ ['Z']).dropWhile Char.isDigit = ['Z'] := by
    rw [List.dropWhile_append_of_pos hdigits]
    rfl
  -- Nine digits are the three of the milliseconds and six zeros.
  have hnine : (fractionDigits n ++ List.replicate 9 '0').take 9 =
      fractionDigits n ++ List.replicate k '0' ++ List.replicate 6 '0' := by
    rw [hk, List.length_append, List.length_replicate] at hlength
    have hplaces : min (9 - (fractionDigits n).length) 9 = k + 6 := by omega
    rw [List.take_append, List.take_of_length_le (by omega), List.take_replicate, hplaces,
      List.append_assoc, List.replicate_append_replicate]
  have hempty : ¬ (fractionDigits n).isEmpty = true := by simpa using hne
  rw [takeFraction?, htake, hdrop, if_neg hempty]
  simp only [hnine]
  rw [Nat.ofDigitChars_append, hvalue, Nat.ofDigitChars_replicate_zero, Nat.mul_comm]

theorem takeChar?_cons (c : Char) (rest : List Char) : takeChar? c (c :: rest) = some rest :=
  if_pos rfl

/-- A calendar day has at most two digits for its month and two for its day. -/
theorem fields_lt {d : Date} (h : d.isValid = true) : d.month < 100 ∧ d.day < 100 := by
  simp only [Date.isValid, Bool.and_eq_true, decide_eq_true_eq] at h
  have hdays : Date.daysInMonth d.year d.month ≤ 31 := by
    unfold Date.daysInMonth
    split
    · split <;> decide
    · split <;> decide
  omega

theorem takeDate?_fields {year month day : Nat} (hyear : (Text.natDigits year).length ≤ 4)
    (hmonth : month < 100) (hday : day < 100) (rest : List Char) :
    takeDate? (Text.padLeft 4 (Text.natDigits year) ++
        '-' :: (twoDigits month ++ '-' :: (twoDigits day ++ rest))) =
      some (⟨year, month, day⟩, rest) := by
  rw [takeDate?, takeNumber?_padLeft hyear]
  simp only [Option.bind_eq_bind, Option.bind_some, takeChar?_cons]
  rw [takeNumber?_twoDigits hmonth]
  simp only [Option.bind_some, takeChar?_cons]
  rw [takeNumber?_twoDigits hday]
  rfl

/-- The reading of a text in UTC, from its parts. -/
theorem nanosOfText?_fields {year month day hour minute second fraction : Nat} {tail : List Char}
    (hyear : (Text.natDigits year).length ≤ 4) (hdate : (⟨year, month, day⟩ : Date).isValid = true)
    (hhour : hour ≤ 23) (hminute : minute ≤ 59) (hsecond : second ≤ 59)
    (hfraction : takeFraction? tail = some (fraction, ['Z'])) :
    nanosOfText? (Text.padLeft 4 (Text.natDigits year) ++ '-' :: (twoDigits month ++
        '-' :: (twoDigits day ++ 'T' :: (twoDigits hour ++ ':' :: (twoDigits minute ++
          ':' :: (twoDigits second ++ tail)))))) =
      some (((⟨year, month, day⟩ : Date).toDays * 86400 +
        ((hour * 60 + minute) * 60 + second : Nat)) * 1000000000 + fraction) := by
  obtain ⟨hmonth, hday⟩ := fields_lt hdate
  have hvalid : (⟨year, month, day⟩ : Date).isValid = true ∧ hour ≤ 23 ∧ minute ≤ 59 ∧
      second ≤ 60 := ⟨hdate, hhour, hminute, by omega⟩
  have hinserted : (second == 60) = false := beq_eq_false_iff_ne.2 (by omega)
  have hseparator : ∀ rest, takeSeparator? ('T' :: rest) = some rest := fun _ => rfl
  have hoffset : offset? ['Z'] = some 0 := rfl
  rw [nanosOfText?, takeDate?_fields hyear hmonth hday]
  simp only [Option.bind_eq_bind, Option.bind_some, hseparator,
    takeNumber?_twoDigits (show hour < 100 by omega), takeChar?_cons,
    takeNumber?_twoDigits (show minute < 100 by omega),
    takeNumber?_twoDigits (show second < 100 by omega), hfraction, hoffset, if_pos hvalid,
    hinserted, Bool.false_and, Bool.false_eq_true, if_false]
  congr 2
  omega

/-- The digits of the time of day of an instant, and the instant from them. -/
theorem clock_spec (millis : Int) :
    (clock millis).hour ≤ 23 ∧ (clock millis).minute ≤ 59 ∧ (clock millis).second ≤ 59 ∧
      (clock millis).millisecond < 1000 ∧
        millis = ((millis / millisPerDay) * 86400 +
          (((clock millis).hour * 60 + (clock millis).minute) * 60 + (clock millis).second : Nat)) *
            1000 + (clock millis).millisecond := by
  simp only [clock, millisPerDay]
  omega

/-- The fraction of a second, which is left out when it is zero, is read back. -/
theorem takeFraction?_millisecond {n : Nat} (h : n < 1000) :
    takeFraction? ((if n = 0 then [] else '.' :: fractionDigits n) ++ ['Z']) =
      some (n * 1000000, ['Z']) := by
  by_cases h0 : n = 0
  · subst h0
    rfl
  · rw [if_neg h0]
    exact takeFraction?_fractionDigits h0 h

/-- An instant is read back from its own text. -/
theorem ofText?_text? {millis : Int64} {s : String} (h : text? millis.toInt = some s) :
    ofText? s = some millis := by
  obtain ⟨hhour, hminute, hsecond, hmillis, hvalue⟩ := clock_spec millis.toInt
  have hdate : (clock millis.toInt).date.isValid = true := Date.isValid_ofDays _
  have hdays : (clock millis.toInt).date.toDays = millis.toInt / millisPerDay :=
    Date.toDays_ofDays _
  rw [← hdays] at hvalue
  unfold text? at h
  generalize clock millis.toInt = c at *
  obtain ⟨⟨year, month, day⟩, hour, minute, second, millisecond⟩ := c
  by_cases hyear : hasShortYear year = true
  · simp only [if_pos hyear, Option.some.injEq] at h
    simp only [hasShortYear, Bool.and_eq_true, decide_eq_true_eq] at hyear
    -- A short year is a natural number of four digits.
    obtain ⟨y, rfl⟩ : ∃ y : Nat, (y : Int) = year := ⟨year.toNat, by omega⟩
    have hdigits : (Text.natDigits y).length ≤ 4 :=
      (Nat.length_toDigits_le_iff (by decide) (by decide)).2 (by omega)
    have hread := nanosOfText?_fields hdigits hdate hhour hminute hsecond
      (takeFraction?_millisecond hmillis)
    have hnanos : ((⟨y, month, day⟩ : Date).toDays * 86400 +
        ((hour * 60 + minute) * 60 + second : Nat)) * 1000000000 + (millisecond * 1000000 : Nat) =
          millis.toInt * 1000000 := by
      dsimp only at hvalue
      omega
    subst h
    rw [ofText?, String.toList_ofList]
    simp only [Int.toNat_natCast, List.append_assoc, List.cons_append] at hread ⊢
    rw [hread, hnanos, Option.map_some, Int.mul_tdiv_cancel _ (by decide), Int64.ofInt_toInt]
  · simp only [if_neg hyear] at h
    cases h

end Docstore.Instant
