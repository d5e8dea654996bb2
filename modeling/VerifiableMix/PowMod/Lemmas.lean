import VerifiableMix.Bytes.Lemmas
import VerifiableMix.PowMod

/-!
# Square-and-multiply computes the power

## Main results

* `powMod_eq` — the value is `b ^ e % m`, for every modulus.
-/

namespace VerifiableMix

/-- The power to an exponent of at most `bits` bits. -/
theorem powModBits_eq (m bits b e : Nat) (h : e < 2 ^ bits) :
    powModBits m bits b e = b ^ e % m := by
  induction bits generalizing b e with
  | zero =>
    have : e = 0 := by simpa using h
    subst this
    simp [powModBits]
  | succ bits ih =>
    have hrest : powModBits m bits (b * b % m) (e / 2) = (b ^ 2) ^ (e / 2) % m := by
      rw [ih _ _ (by rw [Nat.pow_succ] at h; omega), ← Nat.pow_mod, Nat.pow_two]
    rw [powModBits, hrest, ← Nat.pow_mul]
    split
    · rename_i hodd
      rw [Nat.mod_mul_mod, ← Nat.pow_succ]
      congr 2
      omega
    · congr 2
      omega

/-- Square-and-multiply computes the power. -/
theorem powMod_eq (b e m : Nat) : powMod b e m = b ^ e % m :=
  powModBits_eq m _ b e (Bytes.lt_two_pow_bitLength e)

end VerifiableMix
