/-!
# Powers of ten

* `powerOfTen` : the weight of a decimal place.
-/

namespace Docstore

/-- The power of ten with `n` zeros. -/
def powerOfTen (n : Nat) : Nat := Nat.pow 10 n

theorem powerOfTen_zero : powerOfTen 0 = 1 := rfl

theorem powerOfTen_pos (n : Nat) : 0 < powerOfTen n := Nat.pow_pos (by decide)

end Docstore
