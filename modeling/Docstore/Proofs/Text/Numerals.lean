import Docstore.Text.Blank
import Docstore.Text.Digits

/-!
# Numerals

* `Text.intOfText?_intDigits` : an integer is read back from its own text;
* `Text.natOfDigits?_padLeft` : zeros in front of digits do not change their value;
* `Text.natDigits_ofDigitChars` : writing the value of digits drops the zeros in front of them;
* `Text.trim_eq_self` : a text without blanks loses nothing.
-/

namespace Docstore.Text

theorem splitSign_eq_self {cs : List Char} (h : ∀ c, cs.head? = some c → c.isDigit = true) :
    splitSign cs = (false, cs) := by
  cases cs with
  | nil => rfl
  | cons c rest =>
    have hc := h c rfl
    unfold splitSign
    split
    · next heq =>
      obtain ⟨rfl, -⟩ := List.cons.inj heq
      cases hc
    · next heq =>
      obtain ⟨rfl, -⟩ := List.cons.inj heq
      cases hc
    · rfl

theorem splitSign_natDigits (n : Nat) : splitSign (natDigits n) = (false, natDigits n) :=
  splitSign_eq_self fun _ hc => isDigit_of_mem_natDigits (List.mem_of_head? hc)

theorem natDigits_injective {n m : Nat} (h : natDigits n = natDigits m) : n = m := by
  have hread := congrArg natOfDigits? h
  simpa [natOfDigits?_natDigits] using hread

/-- An integer is read back from its own text. -/
theorem intOfText?_intDigits (n : Int) : intOfText? (intDigits n) = some n := by
  unfold intOfText? intDigits
  by_cases h : n < 0
  · have hvalue : -(n.natAbs : Int) = n := by omega
    rw [if_pos h, splitSign]
    dsimp only
    rw [natOfDigits?_natDigits]
    exact congrArg some hvalue
  · have hvalue : (n.natAbs : Int) = n := by omega
    rw [if_neg h, splitSign_natDigits]
    dsimp only
    rw [natOfDigits?_natDigits]
    exact congrArg some hvalue

theorem all_isDigit_padLeft (width n : Nat) :
    ∀ c ∈ padLeft width (natDigits n), c.isDigit = true := by
  intro c hc
  rcases List.mem_append.1 hc with hc | hc
  · rw [List.eq_of_mem_replicate hc]
    rfl
  · exact isDigit_of_mem_natDigits hc

/-- Zeros in front of digits do not change their value. -/
theorem ofDigitChars_padLeft (width n : Nat) :
    Nat.ofDigitChars 10 (padLeft width (natDigits n)) 0 = n := by
  rw [padLeft, Nat.ofDigitChars_append, Nat.ofDigitChars_replicate_zero, Nat.mul_zero]
  exact Nat.ofDigitChars_ten_toDigits

theorem natOfDigits?_padLeft (width n : Nat) :
    natOfDigits? (padLeft width (natDigits n)) = some n := by
  have hne : padLeft width (natDigits n) ≠ [] := fun h =>
    natDigits_ne_nil n (List.append_eq_nil_iff.1 h).2
  have hall : (padLeft width (natDigits n)).all Char.isDigit = true :=
    List.all_eq_true.2 (all_isDigit_padLeft width n)
  rw [natOfDigits?, if_neg hne, if_pos hall, ofDigitChars_padLeft]

theorem toNat_of_isDigit {c : Char} (h : c.isDigit = true) : 48 ≤ c.toNat ∧ c.toNat ≤ 57 := by
  simpa [Char.isDigit, UInt32.le_iff_toNat_le] using h

theorem natOfDigits?_eq_some_iff {cs : List Char} {n : Nat} :
    natOfDigits? cs = some n ↔
      cs ≠ [] ∧ (∀ c ∈ cs, c.isDigit = true) ∧ Nat.ofDigitChars 10 cs 0 = n := by
  unfold natOfDigits?
  by_cases hne : cs = []
  · simp [hne]
  · rw [if_neg hne, ← List.all_eq_true]
    cases cs.all Char.isDigit <;> simp [hne]

/-- Digits without the zeros in front of them; the last digit stays. -/
def withoutLeadingZeros : List Char → List Char
  | '0' :: c :: rest => withoutLeadingZeros (c :: rest)
  | cs => cs

theorem natDigits_digit {c : Char} (h : c.isDigit = true) : natDigits (c.toNat - 48) = [c] := by
  have hrange := toNat_of_isDigit h
  rw [natDigits, Nat.toDigits_of_lt_base (by omega), List.singleton_inj, ← Char.toNat_inj,
    Nat.toNat_digitChar_of_lt_ten (by omega)]
  omega

/-- Behind a digit that is not zero every digit counts. -/
theorem natDigits_ofDigitChars_of_pos {cs : List Char} {n : Nat} (hn : 0 < n)
    (h : ∀ c ∈ cs, c.isDigit = true) :
    natDigits (Nat.ofDigitChars 10 cs n) = natDigits n ++ cs := by
  induction cs generalizing n with
  | nil => simp
  | cons c rest ih =>
    obtain ⟨hc, hrest⟩ := List.forall_mem_cons.1 h
    have hrange := toNat_of_isDigit hc
    have hzero : '0'.toNat = 48 := rfl
    have hsnoc :=
      Nat.toDigits_append_toDigits (b := 10) (d := c.toNat - 48) (by decide) hn (by omega)
    rw [← natDigits, ← natDigits, ← natDigits, natDigits_digit hc] at hsnoc
    rw [Nat.ofDigitChars_cons, hzero, ih (by omega) hrest, ← hsnoc, List.append_assoc,
      List.singleton_append]

/-- Writing the value of digits drops the zeros in front of them. -/
theorem natDigits_ofDigitChars {cs : List Char} (hne : cs ≠ []) (h : ∀ c ∈ cs, c.isDigit = true) :
    natDigits (Nat.ofDigitChars 10 cs 0) = withoutLeadingZeros cs := by
  fun_induction withoutLeadingZeros cs with
  | case1 c rest ih => exact ih (List.cons_ne_nil c rest) (List.forall_mem_cons.1 h).2
  | case2 cs hcs =>
    cases cs with
    | nil => exact absurd rfl hne
    | cons c rest =>
      obtain ⟨hc, hrest⟩ := List.forall_mem_cons.1 h
      have hrange := toNat_of_isDigit hc
      have hzero : '0'.toNat = 48 := rfl
      rw [Nat.ofDigitChars_cons, hzero, Nat.mul_zero, Nat.zero_add]
      by_cases hpos : 0 < c.toNat - 48
      · rw [natDigits_ofDigitChars_of_pos hpos hrest, natDigits_digit hc, List.singleton_append]
      · -- A zero that stays is the last digit.
        obtain rfl : c = '0' := Char.toNat_inj.1 (by omega)
        cases rest with
        | nil => exact natDigits_digit hc
        | cons d more => exact absurd rfl (hcs d more)

/-- Digits that fit a width fill it. -/
theorem length_padLeft {width : Nat} {cs : List Char} (h : cs.length ≤ width) :
    (padLeft width cs).length = width := by
  rw [padLeft, List.length_append, List.length_replicate]
  omega

/-- What is missing without the last zeros is zeros. -/
theorem eq_dropTrailingZeros_append (cs : List Char) :
    ∃ k, cs = dropTrailingZeros cs ++ List.replicate k '0' := by
  have hzeros : ∀ c ∈ cs.reverse.takeWhile (· == '0'), c = '0' := fun c hc =>
    beq_iff_eq.1 (List.all_eq_true.1 List.all_takeWhile c hc)
  refine ⟨(cs.reverse.takeWhile (· == '0')).length, ?_⟩
  have hsplit := List.takeWhile_append_dropWhile (p := (· == '0')) (l := cs.reverse)
  have hreverse := congrArg List.reverse hsplit
  rw [List.eq_replicate_of_mem hzeros, List.reverse_append, List.reverse_replicate,
    List.reverse_reverse] at hreverse
  rw [dropTrailingZeros, hreverse]

/-- Printable characters of one byte are no blanks, except for the blank itself. -/
theorem isBlank_eq_false {c : Char} (h : 0x20 < c.toNat ∧ c.toNat < 0x7f) : isBlank c = false := by
  simp only [isBlank, blankRanges, List.any_cons, List.any_nil, Bool.or_false, Bool.or_eq_false_iff,
    Bool.and_eq_false_iff, decide_eq_false_iff_not]
  omega

theorem isBlank_of_isDigit {c : Char} (h : c.isDigit = true) : isBlank c = false := by
  have hrange := toNat_of_isDigit h
  exact isBlank_eq_false (by omega)

theorem toLower_of_isDigit {c : Char} (h : c.isDigit = true) : c.toLower = c := by
  have hrange := toNat_of_isDigit h
  unfold Char.toLower
  rw [dif_neg]
  rintro ⟨hupper, -⟩
  have hletter : 65 ≤ c.toNat := hupper
  omega

theorem dropWhile_eq_self {p : Char → Bool} {cs : List Char} (h : ∀ c ∈ cs, p c = false) :
    cs.dropWhile p = cs := by
  cases cs with
  | nil => rfl
  | cons c rest => rw [List.dropWhile_cons_of_neg (by simp [h c List.mem_cons_self])]

/-- A text without blanks loses nothing. -/
theorem trim_eq_self {cs : List Char} (h : ∀ c ∈ cs, isBlank c = false) : trim cs = cs := by
  rw [trim, dropWhile_eq_self h, dropWhile_eq_self fun c hc => h c (List.mem_reverse.1 hc),
    List.reverse_reverse]

end Docstore.Text
