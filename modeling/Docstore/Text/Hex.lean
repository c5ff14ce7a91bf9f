/-!
# Hexadecimal digits

* `hexChar` writes a digit in lower case, `hexValue?` reads either case;
* `hexOfBytes` and `bytesOfHex?` take two digits for a byte.

A digit is read back from its own character (`hexValue?_hexChar`), and bytes are read back from
their digits (`bytesOfHex?_hexOfBytes`).
-/

namespace Docstore.Text

/-- The lower-case character of a hexadecimal digit. -/
def hexChar (d : Fin 16) : Char :=
  if d.val < 10 then Char.ofNat (0x30 + d.val) else Char.ofNat (0x57 + d.val)

/-- The digit that a character of either case stands for. -/
def hexValue? (c : Char) : Option (Fin 16) :=
  if 0x30 ≤ c.toNat ∧ c.toNat ≤ 0x39 then some (Fin.ofNat 16 (c.toNat - 0x30))
  else if 0x61 ≤ c.toNat ∧ c.toNat ≤ 0x66 then some (Fin.ofNat 16 (c.toNat - 0x57))
  else if 0x41 ≤ c.toNat ∧ c.toNat ≤ 0x46 then some (Fin.ofNat 16 (c.toNat - 0x37))
  else none

theorem hexValue?_hexChar (d : Fin 16) : hexValue? (hexChar d) = some d := by
  revert d; decide

/-- The two digits of a byte, high half first. -/
def hexOfByte (b : UInt8) : List Char :=
  [hexChar (Fin.ofNat 16 (b.toNat / 16)), hexChar (Fin.ofNat 16 (b.toNat % 16))]

/-- The digits of a row of bytes. -/
def hexOfBytes (bytes : List UInt8) : List Char := bytes.flatMap hexOfByte

/-- The bytes that pairs of digits stand for. -/
def bytesOfHex? : List Char → Option (List UInt8)
  | [] => some []
  | [_] => none
  | h :: l :: rest => do
    let hi ← hexValue? h
    let lo ← hexValue? l
    let bytes ← bytesOfHex? rest
    return UInt8.ofNat (16 * hi.val + lo.val) :: bytes

/-- Bytes are read back from their own digits. -/
theorem bytesOfHex?_hexOfBytes (bytes : List UInt8) :
    bytesOfHex? (hexOfBytes bytes) = some bytes := by
  induction bytes with
  | nil => rfl
  | cons b bytes ih =>
    have hb := b.toNat_lt
    have hbyte : UInt8.ofNat (16 * (b.toNat / 16 % 16) + b.toNat % 16 % 16) = b := by
      rw [← UInt8.toNat_inj]
      simp only [UInt8.toNat_ofNat']
      omega
    simp only [hexOfBytes] at ih
    simp [hexOfBytes, hexOfByte, bytesOfHex?, hexValue?_hexChar, ih]
    simpa using hbyte

/-- The lower-case hexadecimal digits of a natural number, without leading zeros. -/
def hexOfNat (n : Nat) : List Char := Nat.toDigits 16 n

end Docstore.Text
