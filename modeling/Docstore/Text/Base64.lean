/-!
# Base 64

Three bytes are written as four symbols of six bits, and a last group of one or two bytes is
filled up with `=` to four characters. Each row of bytes has one text: the filling is not left
out when it is read, and the bits of the last symbol beyond the last byte are zero.

* `base64OfBytes` writes, `bytesOfBase64?` reads.

What is written is read back (`bytesOfBase64?_base64OfBytes`).
-/

namespace Docstore.Text

/-- The symbols of the values 0 to 63. -/
def base64Symbols : List Char :=
  "ABCDEFGHIJKLMNOPQRSTUVWXYZabcdefghijklmnopqrstuvwxyz0123456789+/".toList

/-- The symbol of a value below 64. -/
def base64Symbol (v : Nat) : Char := base64Symbols.getD v 'A'

/-- The value of a symbol. -/
def base64Value? (c : Char) : Option Nat := base64Symbols.findIdx? (· == c)

/-- The base 64 text of a row of bytes. -/
def base64OfBytes : List UInt8 → List Char
  | [] => []
  | [a] =>
    let v := a.toNat * 16
    [base64Symbol (v / 64), base64Symbol (v % 64), '=', '=']
  | [a, b] =>
    let v := (a.toNat * 256 + b.toNat) * 4
    [base64Symbol (v / 4096), base64Symbol (v / 64 % 64), base64Symbol (v % 64), '=']
  | a :: b :: c :: rest =>
    let v := (a.toNat * 256 + b.toNat) * 256 + c.toNat
    base64Symbol (v / 262144) :: base64Symbol (v / 4096 % 64) ::
      base64Symbol (v / 64 % 64) :: base64Symbol (v % 64) :: base64OfBytes rest

/-- The bytes that a base 64 text stands for. -/
def bytesOfBase64? : List Char → Option (List UInt8)
  | [] => some []
  | [p, q, '=', '='] => do
    let p ← base64Value? p
    let q ← base64Value? q
    if q % 16 = 0 then some [UInt8.ofNat (p * 4 + q / 16)] else none
  | [p, q, r, '='] => do
    let p ← base64Value? p
    let q ← base64Value? q
    let r ← base64Value? r
    if r % 4 = 0 then some [UInt8.ofNat (p * 4 + q / 16), UInt8.ofNat (q % 16 * 16 + r / 4)]
    else none
  | p :: q :: r :: s :: rest => do
    let p ← base64Value? p
    let q ← base64Value? q
    let r ← base64Value? r
    let s ← base64Value? s
    let bytes ← bytesOfBase64? rest
    return UInt8.ofNat (p * 4 + q / 16) :: UInt8.ofNat (q % 16 * 16 + r / 4) ::
      UInt8.ofNat (r % 4 * 64 + s) :: bytes
  | _ => none

set_option maxRecDepth 4000 in
/-- A symbol is read as its own value. -/
theorem base64Value?_base64Symbol (v : Nat) (h : v < 64) :
    base64Value? (base64Symbol v) = some v := by
  revert v
  decide

/-- The filling is none of the symbols. -/
theorem base64Symbol_ne_filling (v : Nat) (h : v < 64) : base64Symbol v ≠ '=' := by
  intro heq
  have hv := base64Value?_base64Symbol v h
  rw [heq] at hv
  cases hv

/-- What is written is read back. -/
theorem bytesOfBase64?_base64OfBytes (bytes : List UInt8) :
    bytesOfBase64? (base64OfBytes bytes) = some bytes := by
  fun_induction base64OfBytes bytes with
  | case1 => rfl
  | case2 a v =>
    have ha := a.toNat_lt
    have hp := base64Value?_base64Symbol (v / 64) (by omega)
    have hq := base64Value?_base64Symbol (v % 64) (by omega)
    rw [bytesOfBase64?.eq_2]
    simp only [hp, hq, Option.bind_eq_bind, Option.bind_some]
    rw [if_pos (by omega)]
    rw [show v / 64 * 4 + v % 64 / 16 = a.toNat by omega, UInt8.ofNat_toNat]
  | case3 a b v =>
    have ha := a.toNat_lt
    have hb := b.toNat_lt
    have hp := base64Value?_base64Symbol (v / 4096) (by omega)
    have hq := base64Value?_base64Symbol (v / 64 % 64) (by omega)
    have hr := base64Value?_base64Symbol (v % 64) (by omega)
    have hne := base64Symbol_ne_filling (v % 64) (by omega)
    rw [bytesOfBase64?.eq_3 _ _ _ hne]
    simp only [hp, hq, hr, Option.bind_eq_bind, Option.bind_some]
    rw [if_pos (by omega)]
    rw [show v / 4096 * 4 + v / 64 % 64 / 16 = a.toNat by omega,
      show v / 64 % 64 % 16 * 16 + v % 64 / 4 = b.toNat by omega,
      UInt8.ofNat_toNat, UInt8.ofNat_toNat]
  | case4 a b c rest v ih =>
    have ha := a.toNat_lt
    have hb := b.toNat_lt
    have hc := c.toNat_lt
    have hp := base64Value?_base64Symbol (v / 262144) (by omega)
    have hq := base64Value?_base64Symbol (v / 4096 % 64) (by omega)
    have hr := base64Value?_base64Symbol (v / 64 % 64) (by omega)
    have hs := base64Value?_base64Symbol (v % 64) (by omega)
    have hne := base64Symbol_ne_filling (v % 64) (by omega)
    rw [bytesOfBase64?.eq_4 _ _ _ _ _ (by simp [hne]) (by simp [hne])]
    simp only [hp, hq, hr, hs, ih, Option.bind_eq_bind, Option.bind_some]
    rw [show v / 262144 * 4 + v / 4096 % 64 / 16 = a.toNat by omega,
      show v / 4096 % 64 % 16 * 16 + v / 64 % 64 / 4 = b.toNat by omega,
      show v / 64 % 64 % 4 * 64 + v % 64 = c.toNat by omega]
    simp only [UInt8.ofNat_toNat]
    rfl

end Docstore.Text
