import VerifiableMix.Bytes

/-!
# Powers modulo a number

`powMod b e m` is `b ^ e % m`, by squaring: one squaring per bit of the
exponent and one product per set bit, so exponents of thousands of bits cost
thousands of products.  The recursion is on the number of bits, which keeps
the definition total and lets the kernel evaluate it.
-/

namespace VerifiableMix

/-- The power to the low `bits` bits of the exponent, by squaring the base. -/
def powModBits (m : Nat) : Nat → Nat → Nat → Nat
  | 0, _, _ => 1 % m
  | bits + 1, b, e =>
    let rest := powModBits m bits (b * b % m) (e / 2)
    if e % 2 = 1 then rest * b % m else rest

/-- `b ^ e % m`, by squaring. -/
def powMod (b e m : Nat) : Nat :=
  powModBits m (Bytes.bitLength e) b e

end VerifiableMix
