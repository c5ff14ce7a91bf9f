import Docstore.Bson.Text
import Docstore.Number.Reading
import Docstore.Proofs.Number.ShortestValue

/-!
# Reading the text of a double

* `Double.readNumber?_positionalText` : positional text is read as the decimal it was written for;
* `Double.exists_ofText?_text` : the text of a finite double is read as a finite double.
-/

namespace Docstore

namespace Double

variable {negative : Bool} {whole fraction : List Char}

theorem takeWhile_isDigit {cs : List Char} (h : ∀ c ∈ cs, c.isDigit = true) :
    cs.takeWhile Char.isDigit = cs := by
  simpa using @List.takeWhile_append_of_pos _ _ _ [] h

theorem dropWhile_isDigit {cs : List Char} (h : ∀ c ∈ cs, c.isDigit = true) :
    cs.dropWhile Char.isDigit = [] := by
  simpa using @List.dropWhile_append_of_pos _ _ _ [] h

theorem readNumber?_whole (h : ∀ c ∈ whole, c.isDigit = true) (hne : whole ≠ []) :
    readNumber? negative whole =
      some (ofDecimal negative (Nat.ofDigitChars 10 whole 0) 0) := by
  simp [readNumber?, takeWhile_isDigit h, dropWhile_isDigit h, hne, readExponent?]

theorem readNumber?_fraction (h : ∀ c ∈ whole ++ fraction, c.isDigit = true) (hne : whole ≠ []) :
    readNumber? negative (whole ++ '.' :: fraction) =
      some (ofDecimal negative (Nat.ofDigitChars 10 (whole ++ fraction) 0)
        (-(fraction.length : Int))) := by
  have hwhole : ∀ c ∈ whole, c.isDigit = true := fun c hc => h c (List.mem_append_left _ hc)
  have hfraction : ∀ c ∈ fraction, c.isDigit = true := fun c hc => h c (List.mem_append_right _ hc)
  have htake : (whole ++ '.' :: fraction).takeWhile Char.isDigit = whole := by
    rw [List.takeWhile_append_of_pos hwhole, List.takeWhile_cons_of_neg (by decide),
      List.append_nil]
  have hdrop : (whole ++ '.' :: fraction).dropWhile Char.isDigit = '.' :: fraction := by
    rw [List.dropWhile_append_of_pos hwhole, List.dropWhile_cons_of_neg (by decide)]
  simp [readNumber?, htake, hdrop, takeWhile_isDigit hfraction, dropWhile_isDigit hfraction, hne,
    readExponent?]

end Double

namespace Scientific

variable {s : Scientific} {cs : List Char}

/-- A text without exponent that denotes a decimal: its coefficient with zeros behind it, or with
a point among its digits or zeros in front of them. -/
inductive Denotes (s : Scientific) : List Char → Prop
  | whole {whole : List Char} (isDigit : ∀ c ∈ whole, c.isDigit = true) (ne_nil : whole ≠ [])
      (value : Nat.ofDigitChars 10 whole 0 = s.coefficient * powerOfTen s.lastExponent.toNat)
      (nonneg : 0 ≤ s.lastExponent) : Denotes s whole
  | fraction {whole fraction : List Char} (isDigit : ∀ c ∈ whole ++ fraction, c.isDigit = true)
      (ne_nil : whole ≠ []) (value : Nat.ofDigitChars 10 (whole ++ fraction) 0 = s.coefficient)
      (length : (fraction.length : Int) = -s.lastExponent) : Denotes s (whole ++ '.' :: fraction)

theorem isDigit_replicate_zero {k : Nat} : ∀ c ∈ List.replicate k '0', c.isDigit = true := by
  intro c hc
  rw [List.eq_of_mem_replicate hc]
  rfl

/-- Positional text denotes the decimal that it is written for. -/
theorem denotes_positionalText {layout : NumberLayout} (hlayout : layout.markWhole = false)
    (hs : ∀ c ∈ s.digits, c.isDigit = true) : s.Denotes (layout.positionalText s) := by
  have hlast : s.lastExponent = s.exponent + 1 - s.digits.length := rfl
  unfold NumberLayout.positionalText
  by_cases hsmall : s.exponent < 0
  · -- The point stands before all digits.
    rw [if_pos hsmall]
    refine @Denotes.fraction s ['0'] _ ?_ (by simp) ?_ ?_
    · intro c hc
      rw [List.mem_append, List.mem_append] at hc
      obtain hc | hc | hc := hc
      · exact isDigit_replicate_zero (k := 1) c hc
      · exact isDigit_replicate_zero c hc
      · exact hs c hc
    · rw [ofDigitChars_append, ofDigitChars_append, Nat.ofDigitChars_replicate_zero]
      simp [Nat.ofDigitChars_cons, coefficient]
    · rw [List.length_append, List.length_replicate]
      omega
  · rw [if_neg hsmall]
    dsimp only
    by_cases hfraction : s.digits.drop (s.exponent.toNat + 1) = []
    · -- Zeros stand behind all digits.
      have hlength := List.drop_eq_nil_iff.1 hfraction
      rw [hfraction, if_pos List.isEmpty_nil, hlayout, if_neg (by simp), List.append_nil,
        List.take_of_length_le hlength]
      refine .whole ?_ ?_ ?_ (by omega)
      · intro c hc
        obtain hc | hc := List.mem_append.1 hc
        · exact hs c hc
        · exact isDigit_replicate_zero c hc
      · refine List.ne_nil_of_length_pos ?_
        rw [List.length_append, List.length_replicate]
        omega
      · rw [ofDigitChars_append_zeros, coefficient]
        congr 2
        omega
    · -- The point stands among the digits.
      have hlength := mt List.drop_eq_nil_iff.2 hfraction
      rw [if_neg (by simpa using hfraction),
        show s.exponent.toNat + 1 - s.digits.length = 0 by omega, List.replicate_zero,
        List.append_nil]
      refine .fraction ?_ ?_ ?_ ?_
      · rwa [List.take_append_drop]
      · refine List.ne_nil_of_length_pos ?_
        rw [List.length_take]
        omega
      · rw [List.take_append_drop, coefficient]
      · rw [List.length_drop]
        omega

theorem Denotes.head_isDigit (h : s.Denotes cs) :
    ∃ c rest, cs = c :: rest ∧ c.isDigit = true := by
  cases h with
  | whole hdigit hne =>
    obtain ⟨c, rest, rfl⟩ := List.exists_cons_of_ne_nil hne
    exact ⟨c, rest, rfl, hdigit c List.mem_cons_self⟩
  | fraction hdigit hne =>
    obtain ⟨c, rest, rfl⟩ := List.exists_cons_of_ne_nil hne
    exact ⟨c, _, rfl, hdigit c (by simp)⟩

/-- A text that denotes a decimal is read as that decimal. -/
theorem Denotes.readNumber? (h : s.Denotes cs) (negative : Bool) :
    Double.readNumber? negative cs =
      some (.ofDecimal negative (s.coefficient * powerOfTen s.lastExponent.toNat)
        (-((-s.lastExponent).toNat : Int))) := by
  cases h with
  | whole hdigit hne hvalue hnonneg =>
    rw [Double.readNumber?_whole hdigit hne, hvalue,
      show (-s.lastExponent).toNat = 0 by omega]
    rfl
  | fraction hdigit hne hvalue hlength =>
    rw [Double.readNumber?_fraction hdigit hne, hvalue,
      show s.lastExponent.toNat = 0 by omega, powerOfTen_zero, Nat.mul_one, ← hlength]
    rfl

end Scientific

namespace Double

/-- Behind its sign a text that starts with a digit is a number, none of the words. -/
theorem ofText?_of_head_isDigit (negative : Bool) {c : Char} {rest : List Char}
    (h : c.isDigit = true) :
    ofText? (String.ofList (if negative then '-' :: c :: rest else c :: rest)) =
      readNumber? negative (c :: rest) := by
  have hsign : Text.splitSign (if negative then '-' :: c :: rest else c :: rest) =
      (negative, c :: rest) := by
    cases negative with
    | true => rfl
    | false =>
      refine Text.splitSign_eq_self fun d hd => ?_
      obtain rfl := Option.some.inj hd
      exact h
  have hword : ∀ (word : String) (letter : Char), word.toList.head? = some letter →
      letter.isDigit = false → String.ofList ((c :: rest).map Char.toLower) ≠ word := by
    rintro word letter hhead hletter rfl
    rw [String.toList_ofList, List.map_cons, List.head?_cons, Text.toLower_of_isDigit h] at hhead
    obtain rfl := Option.some.inj hhead
    rw [h] at hletter
    cases hletter
  rw [ofText?, String.toList_ofList, hsign]
  dsimp only
  rw [if_neg (hword _ 'n' rfl rfl), if_neg]
  rintro (h | h)
  · exact hword _ 'i' rfl rfl h
  · exact hword _ 'i' rfl rfl h

end Double

/-- The text of a finite double is read as a finite double. -/
theorem Finite.exists_ofText?_text (x : Finite) :
    ∃ y, Double.ofText? (x.text Bson.layout) = some (.finite y) := by
  obtain ⟨hdigit, hbelow⟩ := x.bounded_shortest Bson.layout.tie
  generalize hs : x.shortest Bson.layout.tie = s at hdigit hbelow
  have hdenotes : s.Denotes (Bson.layout.positionalText s) := s.denotes_positionalText rfl hdigit
  have htext : Bson.layout.write s = Bson.layout.positionalText s := rfl
  obtain ⟨c, rest, hcs, hc⟩ := hdenotes.head_isDigit
  obtain ⟨y, hy⟩ := Double.exists_ofDecimal_eq x.negative hbelow
  refine ⟨y, ?_⟩
  rw [Finite.text, hs, htext, hcs, Double.ofText?_of_head_isDigit x.negative hc, ← hcs,
    hdenotes.readNumber?, hy]

end Docstore
