import Docstore.Proofs.Number.Value
import Docstore.Proofs.Scalar.RoundTrip

/-!
# Integers are exact

A number is an integer when it is whole and fits a signed word of 64 bits, and then it is that
integer: nothing is rounded or clamped.

* `Json.number?`, `Bson.number?` : the rational number that a value is;
* `ScalarType.wholeOfDouble?_eq_bind` : comparing with bounds that are doubles, and then clamping,
  is the exact conversion;
* `ScalarType.wholeOfDouble?_eq_some_iff` : the integer of a double has its value;
* `ScalarType.castInteger?_eq_some_iff` : the integer of a JSON number has its value, also where the
  number is an unsigned word that has to be rounded to a double on the way;
* `ScalarType.integer_exact` : casting and reading numbers as integers.
-/

namespace Docstore

/-- The number that a JSON value is. -/
def Json.number? : Json → Option ℚ
  | .int n => some n
  | .double x => some x.value
  | _ => none

namespace Bson

/-- The value is of a type of numbers. -/
def IsNumeric : Bson → Prop
  | .int32 _ => True
  | .int64 _ => True
  | .double _ => True
  | _ => False

/-- The number that a stored value is; infinities and not-a-number are none. -/
def number? : Bson → Option ℚ
  | .int32 n => some n.toInt
  | .int64 n => some n.toInt
  | .double (.finite x) => some x.value
  | _ => none

theorem int64OfInt?_eq_some_iff {k : ℤ} {n : Int64} : int64OfInt? k = some n ↔ n.toInt = k := by
  refine ⟨fun h => ?_, fun h => h ▸ ScalarType.int64OfInt?_toInt n⟩
  rw [int64OfInt?] at h
  split at h
  · next hrange =>
    obtain rfl := Option.some.inj h
    exact Int64.toInt_ofInt_of_le hrange.1 hrange.2
  · cases h

end Bson

namespace ScalarType

/-- The number is a whole one of 64 signed bits. -/
def IsWord (q : ℚ) : Prop := ∃ k : ℤ, q = k ∧ -2 ^ 63 ≤ k ∧ k < 2 ^ 63

theorem isWord_iff {q : ℚ} : IsWord q ↔ ∃ n : Int64, (n.toInt : ℚ) = q := by
  constructor
  · rintro ⟨k, rfl, hlow, hhigh⟩
    exact ⟨Int64.ofInt k, congrArg _ (Int64.toInt_ofInt_of_le hlow hhigh)⟩
  · rintro ⟨n, rfl⟩
    exact ⟨n.toInt, rfl, n.le_toInt, n.toInt_lt⟩

/-- Bounds that are doubles and a conversion that clamps convert exactly. -/
theorem wholeOfDouble?_eq_bind (x : Double) :
    wholeOfDouble? x = x.toInt?.bind Bson.int64OfInt? := by
  rw [wholeOfDouble?]
  cases hk : x.toInt? with
  | none => rfl
  | some k =>
    obtain ⟨hlow, hhigh⟩ := Double.compare?_bounds_of_toInt? hk
    simp only [hlow, hhigh, Option.isSome_some, true_and, Option.bind_some, Bson.int64OfInt?]
    split
    · next hrange => rw [Double.clamped_of_toInt? hk hrange.1 hrange.2]
    · rfl

/-- The integer of a double has its value. -/
theorem wholeOfDouble?_eq_some_iff {x : Finite} {n : Int64} :
    wholeOfDouble? (.finite x) = some n ↔ (n.toInt : ℚ) = x.value := by
  have hinteger : (Double.finite x).toInt? = x.toInt? := rfl
  rw [wholeOfDouble?_eq_bind, hinteger, Option.bind_eq_some_iff, eq_comm (a := (n.toInt : ℚ)),
    ← Finite.toInt?_eq_some_iff]
  simp only [Bson.int64OfInt?_eq_some_iff]
  exact ⟨fun ⟨k, hk, hn⟩ => hn ▸ hk, fun h => ⟨_, h, rfl⟩⟩

/-- An integer beyond 64 signed bits is none as a double either. -/
theorem wholeOfDouble?_ofInt_eq_none {k : ℤ} (h : 2 ^ 63 ≤ k) :
    wholeOfDouble? (.ofInt k) = none := by
  rw [Option.eq_none_iff_forall_ne_some]
  intro n hn
  rw [wholeOfDouble?_eq_bind] at hn
  obtain ⟨v, hv, hvn⟩ := Option.bind_eq_some_iff.1 hn
  have hlow := Double.two_pow_le_of_toInt?_ofInt h hv
  have hhigh := n.toInt_lt
  rw [Bson.int64OfInt?_eq_some_iff] at hvn
  omega

/-- The integer of a JSON number has its value. -/
theorem castInteger?_eq_some_iff {v : Json} {q : ℚ} (hv : v.WellFormed) (hq : v.number? = some q)
    {n : Int64} : castInteger? v = some n ↔ (n.toInt : ℚ) = q := by
  cases v with
  | int k =>
    obtain rfl := Option.some.inj hq
    rw [Int.cast_inj, castInteger?]
    cases hk : Bson.int64OfInt? k with
    | some m =>
      rw [Bson.int64OfInt?_eq_some_iff] at hk
      rw [← hk, Option.some_inj, Int64.toInt_inj, eq_comm]
    | none =>
      -- What no signed word holds is an unsigned one, and rounding does not make it smaller.
      have hbeyond : 2 ^ 63 ≤ k := by
        obtain ⟨hlow, -⟩ : Json.IntInRange k := hv
        rw [Bson.int64OfInt?] at hk
        split at hk
        · cases hk
        · omega
      have hlt := n.toInt_lt
      simp only [wholeOfDouble?_ofInt_eq_none hbeyond]
      exact iff_of_false (by simp) (by omega)
  | double x =>
    obtain rfl := Option.some.inj hq
    exact wholeOfDouble?_eq_some_iff
  | _ => cases hq

theorem cast_integer_eq_ok_iff {v : Json} {q : ℚ} (hv : v.WellFormed) (hq : v.number? = some q)
    {c : Canonical} :
    ScalarType.integer.cast v = .ok c ↔ ∃ n : Int64, c = .integer n ∧ (n.toInt : ℚ) = q := by
  have hnull : v ≠ .null := by
    rintro rfl
    cases hq
  rw [cast_eq_ok_iff (by simp) hnull, canonical?, Option.map_eq_some_iff]
  simp only [castInteger?_eq_some_iff hv hq]
  constructor
  · rintro ⟨n, hn, rfl⟩
    exact ⟨n, rfl, hn⟩
  · rintro ⟨n, rfl, hn⟩
    exact ⟨n, hn, rfl⟩

theorem read_integer_eq_ok_iff {b : Bson} (hb : b.IsNumeric) {j : Json} :
    ScalarType.integer.read b = .ok j ↔
      ∃ n : Int64, j = .int n.toInt ∧ b.number? = some (n.toInt : ℚ) := by
  have hread : ScalarType.integer.read b = .ok j ↔ readInteger? b = some j := by
    refine read_eq_ok_iff ?_ ?_ <;> (rintro rfl; cases hb)
  rw [hread]
  cases b with
  | int32 m =>
    have hm : m.toInt64.toInt = m.toInt := Int32.toInt_toInt64 m
    simp only [readInteger?, Bson.number?, Option.some_inj, Int.cast_inj]
    constructor
    · rintro rfl
      exact ⟨m.toInt64, congrArg _ hm.symm, hm.symm⟩
    · rintro ⟨n, rfl, hn⟩
      rw [hn]
  | int64 m =>
    simp only [readInteger?, Bson.number?, Option.some_inj, Int.cast_inj]
    constructor
    · rintro rfl
      exact ⟨m, rfl, rfl⟩
    · rintro ⟨n, rfl, hn⟩
      rw [hn]
  | double x =>
    cases x with
    | finite x =>
      simp only [readInteger?, Option.map_eq_some_iff, wholeOfDouble?_eq_some_iff, Bson.number?,
        Option.some_inj]
      constructor
      · rintro ⟨n, hn, rfl⟩
        exact ⟨n, rfl, hn.symm⟩
      · rintro ⟨n, rfl, hn⟩
        exact ⟨n, hn.symm, rfl⟩
    | infinity negative => exact iff_of_false nofun nofun
    | nan negative => exact iff_of_false nofun nofun
  | _ => cases hb

/-- **Numbers become integers exactly or not at all.** Casting a JSON number to an integer succeeds
exactly when it is whole and within 64 signed bits, and gives that number; reading a stored number
as an integer succeeds under the same condition and gives that number, which is cast to itself
again. -/
theorem integer_exact :
    (∀ v q, v.WellFormed → v.number? = some q →
      ((∃ c, ScalarType.integer.cast v = .ok c) ↔ IsWord q) ∧
      ∀ c, ScalarType.integer.cast v = .ok c ↔ ∃ n : Int64, c = .integer n ∧ (n.toInt : ℚ) = q) ∧
    ∀ b, b.IsNumeric →
      ((∃ j, ScalarType.integer.read b = .ok j) ↔ ∃ q, b.number? = some q ∧ IsWord q) ∧
      ∀ j, ScalarType.integer.read b = .ok j → ∃ n : Int64, j = .int n.toInt ∧
        b.number? = some (n.toInt : ℚ) ∧ ScalarType.integer.cast j = .ok (.integer n) := by
  refine ⟨fun v q hv hq => ⟨?_, fun c => cast_integer_eq_ok_iff hv hq⟩, fun b hb => ⟨?_, ?_⟩⟩
  · simp only [cast_integer_eq_ok_iff hv hq, isWord_iff]
    exact ⟨fun ⟨_, n, _, hn⟩ => ⟨n, hn⟩, fun ⟨n, hn⟩ => ⟨_, n, rfl, hn⟩⟩
  · simp only [read_integer_eq_ok_iff hb, isWord_iff]
    constructor
    · rintro ⟨j, n, -, hn⟩
      exact ⟨_, hn, n, rfl⟩
    · rintro ⟨q, hq, n, rfl⟩
      exact ⟨_, n, rfl, hq⟩
  · intro j hj
    obtain ⟨n, rfl, hn⟩ := (read_integer_eq_ok_iff hb).1 hj
    refine ⟨n, rfl, hn, ?_⟩
    have hrange : (Json.int n.toInt).WellFormed := by
      have hlow := n.le_toInt
      have hhigh := n.toInt_lt
      exact ⟨hlow, by omega⟩
    exact (cast_integer_eq_ok_iff hrange rfl).2 ⟨n, rfl, rfl⟩

/-- The largest integer is cast to itself, the next one is refused though it is a double, and so is
what is stored as not-a-number; a whole stored double is read. -/
theorem integer_exact_boundary :
    let top : Json := .int 0x7FFFFFFFFFFFFFFF
    let next : Json := .int 0x8000000000000000
    let three : Double := .ofBits 0xC008000000000000
    (top.WellFormed ∧ ScalarType.integer.cast top = .ok (.integer 0x7FFFFFFFFFFFFFFF)) ∧
      (next.WellFormed ∧ ¬ ∃ c, ScalarType.integer.cast next = .ok c) ∧
      ((Bson.double (.nan false)).IsNumeric ∧
        ¬ ∃ j, ScalarType.integer.read (.double (.nan false)) = .ok j) ∧
      ((Bson.double three).IsNumeric ∧
        ∃ n, ScalarType.integer.read (.double three) = .ok (.int n) ∧
          (Bson.double three).number? = some (n : ℚ)) := by
  intro top next three
  have htop : top.WellFormed := (by decide : Json.IntInRange 0x7FFFFFFFFFFFFFFF)
  have hnext : next.WellFormed := (by decide : Json.IntInRange 0x8000000000000000)
  have hthree : wholeOfDouble? three = some (-3) := by decide +kernel
  have hread : ScalarType.integer.read (.double three) = .ok (.int (-3)) := by
    simp only [read, json?, readInteger?, hthree]
    rfl
  refine ⟨⟨htop, (integer_exact.1 top _ htop rfl).2 _ |>.2 ⟨_, rfl, rfl⟩⟩, ⟨hnext, ?_⟩,
    ⟨trivial, ?_⟩, trivial, -3, hread, ?_⟩
  · rw [(integer_exact.1 next _ hnext rfl).1]
    rintro ⟨k, hk, -, hlt⟩
    have hvalue : k = 0x8000000000000000 := by exact_mod_cast hk.symm
    omega
  · rw [(integer_exact.2 (.double (.nan false)) trivial).1]
    rintro ⟨q, hq, -⟩
    cases hq
  · obtain ⟨n, hn, hvalue, -⟩ := (integer_exact.2 (.double three) trivial).2 _ hread
    rw [hvalue, Json.int.inj hn]

end ScalarType

end Docstore
