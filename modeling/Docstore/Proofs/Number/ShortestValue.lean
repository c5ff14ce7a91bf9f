import Docstore.Number.Shortest
import Docstore.Proofs.Number.Rounding
import Docstore.Proofs.Text.Numerals

/-!
# The value of the shortest decimal

The shortest decimal of a finite double may be larger than the double, but it never reaches the
values that round to an infinity: the interval of the largest number ends at the limit, and its
end does not belong to it.

* `Finite.BelowLimit` : a decimal is below the limit;
* `Finite.belowLimit_of_covers` : a decimal that rounds to a finite double is;
* `Finite.bounded_shortest` : the shortest decimal of a finite double is.
-/

namespace Docstore

theorem powerOfTen_add (n m : Nat) : powerOfTen (n + m) = powerOfTen n * powerOfTen m :=
  Nat.pow_add 10 n m

theorem powerOfTen_le {n m : Nat} (h : n ≤ m) : powerOfTen n ≤ powerOfTen m :=
  Nat.pow_le_pow_right (by decide) h

/-- The value of digits is that of the first ones, moved up, and that of the rest. -/
theorem ofDigitChars_append (cs ds : List Char) :
    Nat.ofDigitChars 10 (cs ++ ds) 0 =
      Nat.ofDigitChars 10 cs 0 * powerOfTen ds.length + Nat.ofDigitChars 10 ds 0 := by
  rw [Nat.ofDigitChars_append, Nat.mul_comm]
  exact Nat.ofDigitChars_eq_ofDigitChars_zero

/-- The value of digits with zeros behind them. -/
theorem ofDigitChars_append_zeros (cs : List Char) (k : Nat) :
    Nat.ofDigitChars 10 (cs ++ List.replicate k '0') 0 =
      Nat.ofDigitChars 10 cs 0 * powerOfTen k := by
  rw [Nat.ofDigitChars_append, Nat.ofDigitChars_replicate_zero, Nat.mul_comm]
  rfl

namespace Finite

/-- The decimal `digits * 10 ^ exponent` is too small to round to an infinity. -/
def BelowLimit (digits : Nat) (exponent : Int) : Prop :=
  digits * powerOfTen exponent.toNat * unitsInOne < limit * powerOfTen (-exponent).toNat

/-- Zeros at the end of the digits may be counted in the exponent. -/
theorem BelowLimit.of_mul_powerOfTen {digits zeros : Nat} {exponent : Int}
    (h : BelowLimit (digits * powerOfTen zeros) exponent) :
    BelowLimit digits (exponent + zeros) := by
  -- `common` of the zeros cancel with decimal places.
  obtain ⟨common, hup, hdown⟩ : ∃ common,
      zeros + exponent.toNat = (exponent + zeros).toNat + common ∧
        (-exponent).toNat = (-(exponent + zeros)).toNat + common :=
    ⟨zeros + exponent.toNat - (exponent + zeros).toNat, by omega, by omega⟩
  rw [BelowLimit, Nat.mul_assoc digits, ← powerOfTen_add, hup, hdown, powerOfTen_add,
    powerOfTen_add, ← Nat.mul_assoc, ← Nat.mul_assoc, Nat.mul_right_comm _ _ unitsInOne] at h
  exact Nat.lt_of_mul_lt_mul_right h

theorem BelowLimit.mono {digits digits' : Nat} {exponent exponent' : Int}
    (h : BelowLimit digits exponent) (hdigits : digits' ≤ digits)
    (hexponent : exponent' ≤ exponent) : BelowLimit digits' exponent' := by
  unfold BelowLimit at h ⊢
  calc digits' * powerOfTen exponent'.toNat * unitsInOne
      ≤ digits * powerOfTen exponent.toNat * unitsInOne :=
        Nat.mul_le_mul_right _ (Nat.mul_le_mul hdigits (powerOfTen_le (by omega)))
    _ < limit * powerOfTen (-exponent).toNat := h
    _ ≤ limit * powerOfTen (-exponent').toNat :=
        Nat.mul_le_mul_left _ (powerOfTen_le (by omega))

theorem belowLimit_zero (exponent : Int) : BelowLimit 0 exponent := by
  rw [BelowLimit, Nat.zero_mul, Nat.zero_mul]
  exact Nat.mul_pos (by decide) (powerOfTen_pos _)

/-! ### Numbers and their intervals -/

theorem shiftLeft_le_shiftLeft {n m k l : Nat} (h : n ≤ m) (hk : k ≤ l) : n <<< k ≤ m <<< l := by
  rw [Nat.shiftLeft_eq, Nat.shiftLeft_eq]
  exact Nat.mul_le_mul h (Nat.pow_le_pow_right (by decide) hk)

theorem shiftLeft_lt_shiftLeft {n m : Nat} (h : n < m) (k : Nat) : n <<< k < m <<< k := by
  rw [Nat.shiftLeft_eq, Nat.shiftLeft_eq]
  exact Nat.mul_lt_mul_of_pos_right h (Nat.two_pow_pos k)

theorem four_mul_shiftLeft (n k : Nat) : 4 * (n <<< k) = (2 * n) <<< (k + 1) := by
  rw [Nat.shiftLeft_eq, Nat.shiftLeft_eq, Nat.pow_succ, Nat.mul_comm 2 n, Nat.mul_assoc,
    Nat.mul_left_comm 2, ← Nat.mul_assoc n, Nat.mul_comm 4, Nat.mul_assoc]

theorem four_mul_limit : 4 * limit = 0x7FFFFFFFFFFFFE <<< 2045 :=
  four_mul_shiftLeft 0x3FFFFFFFFFFFFF 2044

/-- The upper end of the interval of a number, in quarter units. -/
theorem add_gapAbove (x : Finite) :
    4 * x.magnitude + x.gapAbove = (4 * x.mantissa + 2) <<< x.shift := by
  rw [magnitude, gapAbove, Nat.shiftLeft_eq, Nat.shiftLeft_eq, Nat.shiftLeft_eq, Nat.add_mul,
    Nat.mul_assoc]

theorem add_gapAbove_le (x : Finite) : 4 * x.magnitude + x.gapAbove ≤ 4 * limit := by
  have hmantissa := x.mantissa_lt
  rw [add_gapAbove, four_mul_limit]
  exact shiftLeft_le_shiftLeft (by omega) x.shift_le

/-- The largest number has an odd mantissa, so that its interval is open. -/
theorem add_gapAbove_lt {x : Finite} (h : x.mantissa % 2 = 0) :
    4 * x.magnitude + x.gapAbove < 4 * limit := by
  have hmantissa := x.mantissa_lt
  rw [add_gapAbove, four_mul_limit]
  calc (4 * x.mantissa + 2) <<< x.shift ≤ 0x7FFFFFFFFFFFFA <<< 2045 :=
        shiftLeft_le_shiftLeft (by omega) x.shift_le
    _ < 0x7FFFFFFFFFFFFE <<< 2045 :=
        shiftLeft_lt_shiftLeft (by decide) 2045

theorem magnitude_lt_limit (x : Finite) : x.magnitude < limit := by
  have hend := x.add_gapAbove_le
  have hgap : 0 < x.gapAbove := by
    rw [gapAbove, Nat.shiftLeft_eq]
    exact Nat.mul_pos (by decide) (Nat.two_pow_pos _)
  omega

/-- A decimal that rounds to a finite double is below the limit. -/
theorem belowLimit_of_covers {x : Finite} {c : Nat} {k : Int} (h : x.covers c k = true) :
    BelowLimit c k := by
  have hpos := powerOfTen_pos (-k).toNat
  have hdecimal :
      c * powerOfTen k.toNat * 4 * unitsInOne < 4 * limit * powerOfTen (-k).toNat := by
    unfold covers at h
    dsimp only at h
    split at h
    · next heven =>
      -- The interval is closed here, but its end is below the limit.
      obtain ⟨-, hhigh⟩ := Bool.and_eq_true_iff.1 h
      exact Nat.lt_of_le_of_lt (of_decide_eq_true hhigh)
        (Nat.mul_lt_mul_of_pos_right (add_gapAbove_lt heven) hpos)
    · obtain ⟨-, hhigh⟩ := Bool.and_eq_true_iff.1 h
      exact Nat.lt_of_lt_of_le (of_decide_eq_true hhigh)
        (Nat.mul_le_mul_right _ x.add_gapAbove_le)
  rw [Nat.mul_right_comm _ 4, Nat.mul_comm _ 4, Nat.mul_assoc 4] at hdecimal
  exact Nat.lt_of_mul_lt_mul_left hdecimal

theorem covers_of_neighbour? {tie : Tie} {x : Finite} {k : Int} {c c' : Nat}
    (h : x.neighbour? tie k c = some c') : x.covers c' k = true := by
  unfold neighbour? at h
  split at h
  · next hlow hhigh =>
    obtain rfl := Option.some.inj h
    split
    · exact hhigh
    · exact hlow
  · next hlow _ => exact Option.some.inj h ▸ hlow
  · next _ hhigh => exact Option.some.inj h ▸ hhigh
  · cases h

/-! ### The search -/

/-- The first digits of an expansion do not exceed the value. -/
theorem belowLimit_take_expansion (x : Finite) (n : Nat) :
    BelowLimit (Nat.ofDigitChars 10 (x.expansion.take n) 0)
      ((x.expansion.length : Int) - 1 - places - n + 1) := by
  have hwhole : BelowLimit (x.magnitude * powerOfTen places / unitsInOne) (-places) := by
    rw [BelowLimit]
    have hdiv := Nat.div_mul_le_self (x.magnitude * powerOfTen places) unitsInOne
    have hlimit := Nat.mul_lt_mul_of_pos_right x.magnitude_lt_limit (powerOfTen_pos places)
    simpa [powerOfTen_zero] using Nat.lt_of_le_of_lt hdiv hlimit
  have hsplit : x.magnitude * powerOfTen places / unitsInOne =
      Nat.ofDigitChars 10 (x.expansion.take n) 0 * powerOfTen (x.expansion.drop n).length +
        Nat.ofDigitChars 10 (x.expansion.drop n) 0 := by
    rw [← ofDigitChars_append, List.take_append_drop]
    exact Nat.ofDigitChars_ten_toDigits.symm
  rw [hsplit] at hwhole
  have hcut := (hwhole.mono (Nat.le_add_right _ _) (Int.le_refl _)).of_mul_powerOfTen
  refine hcut.mono (Nat.le_refl _) ?_
  rw [List.length_drop]
  omega

/-- The search gives a decimal that rounds to the number or, when its fuel runs out, the first
digits of the expansion. -/
theorem belowLimit_searchShortest (tie : Tie) (x : Finite) {digits : List Char} {top : Int}
    (hcut : ∀ n : Nat, BelowLimit (Nat.ofDigitChars 10 (digits.take n) 0) (top - n + 1)) :
    ∀ fuel n, BelowLimit (x.searchShortest tie digits top n fuel).1
      (x.searchShortest tie digits top n fuel).2
  | 0, n => hcut n
  | fuel + 1, n => by
    unfold searchShortest
    dsimp only
    split
    · next heq => exact belowLimit_of_covers (covers_of_neighbour? heq)
    · exact belowLimit_searchShortest tie x hcut fuel (n + 1)

end Finite

namespace Scientific

/-- The power of ten of the last digit. -/
def lastExponent (s : Scientific) : Int := s.exponent + 1 - s.digits.length

/-- The number that the digits form. -/
def coefficient (s : Scientific) : Nat := Nat.ofDigitChars 10 s.digits 0

/-- The decimal is below the limit, and its digits are digits. -/
structure Bounded (s : Scientific) : Prop where
  isDigit : ∀ c ∈ s.digits, c.isDigit = true
  belowLimit : Finite.BelowLimit s.coefficient s.lastExponent

end Scientific

/-- The shortest decimal of a finite double is below the limit. -/
theorem Finite.bounded_shortest (tie : Tie) (x : Finite) : (x.shortest tie).Bounded := by
  unfold shortest
  split
  · exact ⟨fun c hc => List.mem_singleton.1 hc ▸ rfl, belowLimit_zero _⟩
  · dsimp only
    have hbelow := belowLimit_searchShortest tie x x.belowLimit_take_expansion 17 1
    generalize x.searchShortest tie x.expansion _ 1 17 = found at hbelow ⊢
    obtain ⟨c, k⟩ := found
    dsimp only at hbelow ⊢
    -- Zeros that are not shown count in the exponent of the last digit.
    obtain ⟨zeros, hzeros⟩ := Text.eq_dropTrailingZeros_append (Text.natDigits c)
    have hvalue := ofDigitChars_append_zeros (Text.dropTrailingZeros (Text.natDigits c)) zeros
    rw [← hzeros, Text.natDigits, Nat.ofDigitChars_ten_toDigits] at hvalue
    have hlength := congrArg List.length hzeros
    rw [List.length_append, List.length_replicate] at hlength
    refine ⟨fun d hd => Text.isDigit_of_mem_natDigits (n := c) ?_, ?_⟩
    · rw [hzeros]
      exact List.mem_append_left _ hd
    · rw [hvalue] at hbelow
      refine hbelow.of_mul_powerOfTen.mono (Nat.le_refl _) ?_
      dsimp only [Scientific.lastExponent]
      omega

end Docstore
