import Docstore.Number.Decimal
import Docstore.Proofs.Text.Numerals

/-!
# Decimals and their text

* `Decimal.readDigits?_append` : a run of digits is read as a whole;
* `Decimal.ofText?_text` : what reading the text of a decimal gives;
* `Decimal.ofText?_text_iff` : a decimal is read back from its text unless it is a zero with a sign.
-/

namespace Docstore.Decimal

theorem le_ofDigitChars (ds : List Char) (n : Nat) : n ≤ Nat.ofDigitChars 10 ds n := by
  induction ds generalizing n with
  | nil => exact Nat.le_refl n
  | cons c ds ih =>
    rw [Nat.ofDigitChars_cons]
    have hgrown := ih (10 * n + (c.toNat - '0'.toNat))
    omega

/-- A run of digits is read as a whole when there is room for it. -/
theorem readDigits?_append {negative point seen : Bool} {mantissa scale : Nat} {ds : List Char}
    (hds : ∀ c ∈ ds, c.isDigit = true) (hmantissa : Nat.ofDigitChars 10 ds mantissa < mantissaLimit)
    (hscale : if point then scale + ds.length ≤ maxScale else scale < maxScale)
    (rest : List Char) :
    readDigits? negative point seen mantissa scale (ds ++ rest) =
      readDigits? negative point (seen || !ds.isEmpty) (Nat.ofDigitChars 10 ds mantissa)
        (if point then scale + ds.length else scale) rest := by
  induction ds generalizing seen mantissa scale with
  | nil => cases point <;> simp
  | cons c ds ih =>
    have hc := hds c List.mem_cons_self
    have hunderscore : (c == '_') = false := by
      refine beq_eq_false_iff_ne.2 ?_
      rintro rfl
      cases hc
    have hroom : ¬ maxScale ≤ scale := by
      cases point <;> simp at hscale <;> omega
    rw [Nat.ofDigitChars_cons] at hmantissa ⊢
    have hgrown := le_ofDigitChars ds (10 * mantissa + (c.toNat - '0'.toNat))
    rw [List.cons_append, readDigits?, hunderscore, Bool.false_and, if_neg Bool.false_ne_true,
      if_neg hroom, if_pos hc]
    dsimp only
    rw [if_pos (by omega), ih (fun c' hc' => hds c' (List.mem_cons_of_mem c hc')) hmantissa]
    · cases point <;> simp [Nat.add_assoc, Nat.add_comm 1]
    · cases point with
      | false => exact hscale
      | true =>
        have hlength : scale + (ds.length + 1) ≤ maxScale := hscale
        exact (show scale + 1 + ds.length ≤ maxScale by omega)

/-- The digits of a decimal, of which the last ones stand behind the point. -/
def digits (d : Decimal) : List Char := Text.padLeft (d.scale + 1) (Text.natDigits d.mantissa)

theorem length_digits (d : Decimal) : d.scale < d.digits.length := by
  rw [digits, Text.padLeft, List.length_append, List.length_replicate]
  omega

theorem all_isDigit_digits (d : Decimal) : ∀ c ∈ d.digits, c.isDigit = true :=
  Text.all_isDigit_padLeft _ _

theorem ofDigitChars_digits (d : Decimal) : Nat.ofDigitChars 10 d.digits 0 = d.mantissa :=
  Text.ofDigitChars_padLeft _ _

/-- The digits in front of the point. -/
def whole (d : Decimal) : List Char := d.digits.take (d.digits.length - d.scale)

/-- The digits behind the point. -/
def fraction (d : Decimal) : List Char := d.digits.drop (d.digits.length - d.scale)

theorem length_whole (d : Decimal) : 0 < d.whole.length := by
  have hlength := d.length_digits
  rw [whole, List.length_take]
  omega

theorem length_fraction (d : Decimal) : d.fraction.length = d.scale := by
  have hlength := d.length_digits
  rw [fraction, List.length_drop]
  omega

theorem whole_append_fraction (d : Decimal) : d.whole ++ d.fraction = d.digits :=
  List.take_append_drop _ _

theorem all_isDigit_whole (d : Decimal) : ∀ c ∈ d.whole, c.isDigit = true := fun c hc =>
  d.all_isDigit_digits c (List.mem_of_mem_take hc)

theorem all_isDigit_fraction (d : Decimal) : ∀ c ∈ d.fraction, c.isDigit = true := fun c hc =>
  d.all_isDigit_digits c (List.mem_of_mem_drop hc)

theorem ofDigitChars_fraction (d : Decimal) :
    Nat.ofDigitChars 10 d.fraction (Nat.ofDigitChars 10 d.whole 0) = d.mantissa := by
  rw [← Nat.ofDigitChars_append, whole_append_fraction, ofDigitChars_digits]

/-- The text without the sign. -/
def unsigned (d : Decimal) : List Char :=
  if d.scale = 0 then d.whole else d.whole ++ '.' :: d.fraction

theorem toList_text (d : Decimal) :
    d.text.toList = if d.negative then '-' :: d.unsigned else d.unsigned :=
  String.toList_ofList

theorem mem_unsigned {d : Decimal} {c : Char} (hc : c ∈ d.unsigned) :
    c = '.' ∨ c.isDigit = true := by
  unfold unsigned at hc
  split at hc
  · exact .inr (d.all_isDigit_whole c hc)
  · rcases List.mem_append.1 hc with hc | hc
    · exact .inr (d.all_isDigit_whole c hc)
    · exact (List.mem_cons.1 hc).imp_right (d.all_isDigit_fraction c)

theorem head?_unsigned (d : Decimal) : ∀ c, d.unsigned.head? = some c → c.isDigit = true := by
  intro c hc
  refine d.all_isDigit_whole c (List.mem_of_head? ?_)
  rw [← hc, unsigned]
  split
  · rfl
  · cases hwhole : d.whole with
    | nil => exact absurd hwhole (List.length_pos_iff.1 d.length_whole)
    | cons c rest => rfl

/-- Both runs of digits are read, one after the other. -/
theorem readDigits?_unsigned (d : Decimal) (negative : Bool) :
    readDigits? negative false false 0 0 d.unsigned = ofRead? negative d.mantissa d.scale := by
  have hvalue := d.ofDigitChars_fraction
  have hlimit : d.mantissa < mantissaLimit := d.mantissa_lt
  have hgrown := le_ofDigitChars d.fraction (Nat.ofDigitChars 10 d.whole 0)
  have hseen : (false || !d.whole.isEmpty) = true := by
    simpa using List.length_pos_iff.1 d.length_whole
  have hroom : (0 : Nat) < maxScale := by decide
  have hwhole := @readDigits?_append negative false false 0 0 d.whole d.all_isDigit_whole
    (by omega) hroom
  rw [hseen] at hwhole
  unfold unsigned
  by_cases hscale : d.scale = 0
  · have hfraction : d.fraction = [] := List.length_eq_zero_iff.1 (d.length_fraction.trans hscale)
    rw [hfraction, Nat.ofDigitChars_nil] at hvalue
    rw [if_pos hscale, ← List.append_nil d.whole, hwhole, hvalue, hscale]
    rfl
  · have hpoint : readDigits? negative false true (Nat.ofDigitChars 10 d.whole 0) 0
        ('.' :: d.fraction) =
          readDigits? negative true true (Nat.ofDigitChars 10 d.whole 0) 0 d.fraction := rfl
    have hplaces : 0 + d.fraction.length ≤ maxScale := by
      rw [length_fraction, Nat.zero_add]
      exact d.scale_le
    have hfraction := @readDigits?_append negative true true _ 0 d.fraction d.all_isDigit_fraction
      (hvalue ▸ hlimit) hplaces []
    rw [List.append_nil, hvalue, length_fraction] at hfraction
    rw [if_neg hscale, hwhole, if_neg Bool.false_ne_true, hpoint, hfraction, if_pos rfl,
      Nat.zero_add]
    rfl

theorem ofRead?_eq_some (d : Decimal) :
    ofRead? d.negative d.mantissa d.scale =
      some ⟨d.negative && d.mantissa != 0, d.mantissa, d.scale, d.mantissa_lt, d.scale_le⟩ :=
  dif_pos ⟨d.mantissa_lt, d.scale_le⟩

/-- The text of a decimal is read as the decimal, but a zero loses its sign. -/
theorem ofText?_text (d : Decimal) :
    ofText? d.text =
      some ⟨d.negative && d.mantissa != 0, d.mantissa, d.scale, d.mantissa_lt, d.scale_le⟩ := by
  have hsplit : Text.splitSign d.text.toList = (d.negative, d.unsigned) := by
    rw [toList_text]
    cases d.negative with
    | false => exact Text.splitSign_eq_self d.head?_unsigned
    | true => rfl
  have hplain : readPlain? d.text.toList = ofRead? d.negative d.mantissa d.scale := by
    rw [readPlain?, hsplit]
    exact d.readDigits?_unsigned d.negative
  rw [ofText?, hplain, ofRead?_eq_some]

/-- A decimal is read back from its text unless it is a zero with a sign. -/
theorem ofText?_text_iff (d : Decimal) :
    ofText? d.text = some d ↔ (d.negative = true → d.mantissa ≠ 0) := by
  obtain ⟨negative, mantissa, scale, hmantissa, hscale⟩ := d
  rw [ofText?_text, Option.some_inj, mk.injEq]
  cases negative <;> simp

end Docstore.Decimal
