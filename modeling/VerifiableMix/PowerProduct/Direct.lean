import VerifiableMix.PowMod
import VerifiableMix.Error

/-!
# Products of powers, one power at a time

The product `∏ bᵢ ^ eᵢ` modulo `m`, for natural numbers `bᵢ`, `eᵢ` of any size:
every power is computed on its own and multiplied in.  This is what the other
ways to compute such a product are measured against.
-/

namespace VerifiableMix.PowerProduct

/-- Fails on a zero modulus. -/
def checkModulus (modulus : Nat) : Except Error Unit :=
  if modulus = 0 then .error .invalidModulus else .ok ()

/-- The product of the powers, starting from one. -/
def directFold (modulus : Nat) (bases exps : List Nat) : Nat :=
  (bases.zip exps).foldl (fun acc (b, e) => acc * powMod b e modulus % modulus) (1 % modulus)

/-- The product of powers, one power at a time. -/
def direct (bases exps : List Nat) (modulus : Nat) : Except Error Nat := do
  checkLength .directBatch bases.length exps.length
  checkModulus modulus
  return directFold modulus bases exps

end VerifiableMix.PowerProduct
