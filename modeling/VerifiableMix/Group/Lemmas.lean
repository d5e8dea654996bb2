import VerifiableMix.PowMod.Lemmas
import VerifiableMix.Group

/-!
# Powers in a group

## Main results

* `powNat_eq`, `val_pow` — powers are those of numbers modulo `p`.
-/

namespace VerifiableMix.Group

/-- A power is that of the number modulo `p`. -/
theorem powNat_eq (G : Group) (x : Element) (k : Nat) :
    G.powNat x k = G.element (x.value ^ k % G.p) := by
  rw [powNat, powMod_eq]

/-- The value of a power is the power of the value modulo `p`. -/
theorem val_pow (G : Group) (x : Element) (k : Scalar) :
    (G.pow x k).value = x.value ^ k.val % G.p :=
  powMod_eq _ _ _

theorem powNat_zero (G : Group) (x : Element) : G.powNat x 0 = G.one := by
  rw [powNat_eq, Nat.pow_zero, Nat.mod_eq_of_lt G.one_lt_p]
  rfl

theorem powNat_succ (G : Group) (x : Element) (k : Nat) :
    G.powNat x (k + 1) = G.mul (G.powNat x k) x := by
  have hmod : x.value ^ k % G.p * x.value % G.p = x.value ^ (k + 1) % G.p := by
    rw [Nat.mod_mul_mod, Nat.pow_succ]
  rw [powNat_eq, powNat_eq, ← hmod]
  rfl

end VerifiableMix.Group
