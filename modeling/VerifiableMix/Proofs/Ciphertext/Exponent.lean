import Mathlib.Order.Bounds.Basic
import VerifiableMix.Proofs.Ciphertext.Decryption
import VerifiableMix.Proofs.Commitment.Generators

/-!
# Finding the exponent

Decryption gives a power of the generator, and the exponent is searched for from 0 on.
Each step of the search multiplies by the generator once more, so the power it compares
in step `m` is the power `m`, and the first hit is the least exponent.

The generator has order `q`, so among the scalars the exponent is unique: the search finds
what was encrypted as soon as the bound allows it, and finds nothing below.

## Main results

* `decryptExponent_eq_find?` — what the search computes.
* `decryptExponent_eq_some_iff`, `decryptExponent_eq_none_iff` — what it finds in a
  ciphertext with arbitrary components.
* `decryptExponent_encrypt` — what it finds in an encryption.
* `encryption_homomorphic` — encryption, its operations and both ways to decrypt.
-/

namespace VerifiableMix

open VerifiableMix.Group

variable {G : Group}

/-! ## Powers with small exponents -/

/-- A scalar is determined by the power of the generator. -/
theorem Group.gpow_injective : Function.Injective G.gpow := by
  intro k k' h
  rw [Member.gpow_eq, Member.gpow_eq] at h
  exact Member.smul_generator_injective (Member.ext h)

/-- Below the order the powers of the generator differ. -/
theorem Group.powNat_eq_gpow_iff {j : Nat} {m : Scalar} (hj : j < Scalar.order) :
    G.powNat G.generator j = G.gpow m ↔ j = m.val := by
  have hpow : G.powNat G.generator j = G.gpow ⟨j, hj⟩ := rfl
  rw [hpow, Group.gpow_injective.eq_iff]
  exact ⟨fun h => congrArg Scalar.val h, fun h => Scalar.ext h⟩

namespace Ciphertext

/-! ## The search -/

/-- Reduced elements are compared as elements. -/
theorem sameValue_decrypt_iff (x : Ciphertext) (sk : SecretKey) (m : Nat) :
    (G.powNat G.generator m).sameValue (x.decrypt G sk) = true ↔
      G.powNat G.generator m = x.decrypt G sk := by
  rw [Element.sameValue, beq_iff_eq]
  exact ⟨fun h => congrArg G.element h, congrArg Element.value⟩

/-- From the power `m` on, the search goes through the powers one after the other. -/
theorem findExponent_eq_find? (target : Element) (count m : Nat) :
    findExponent G target count m (G.powNat G.generator m) =
      (List.range' m count).find? fun k => (G.powNat G.generator k).sameValue target := by
  -- The start moves with the steps that are left, and the power with the start.
  induction count generalizing m with
  | zero => rfl
  | succ count ih =>
      rw [findExponent, ← powNat_succ, ih, List.range'_succ, List.find?_cons]
      cases (G.powNat G.generator m).sameValue target <;> rfl

/-- The search returns the first exponent up to the bound whose power is the plaintext. -/
theorem decryptExponent_eq_find? (x : Ciphertext) (sk : SecretKey) (max : Nat) :
    x.decryptExponent G sk max = (List.range (max + 1)).find? fun k =>
      (G.powNat G.generator k).sameValue (x.decrypt G sk) := by
  rw [decryptExponent, ← powNat_zero G G.generator, findExponent_eq_find?, List.range_eq_range']

/-- What is found is the least exponent up to the bound whose power is the plaintext. -/
theorem decryptExponent_eq_some_iff {x : Ciphertext} {sk : SecretKey} {max m : Nat} :
    x.decryptExponent G sk max = some m ↔
      IsLeast {j | j ≤ max ∧ G.powNat G.generator j = x.decrypt G sk} m := by
  rw [decryptExponent_eq_find?, List.find?_range_eq_some, sameValue_decrypt_iff, List.mem_range,
    Nat.lt_succ_iff]
  simp only [Bool.not_eq_true', ← Bool.not_eq_true, sameValue_decrypt_iff]
  constructor
  · rintro ⟨hhit, hle, hbefore⟩
    exact ⟨⟨hle, hhit⟩, fun j hj => Nat.le_of_not_lt fun hlt => hbefore j hlt hj.2⟩
  · rintro ⟨⟨hle, hhit⟩, hleast⟩
    refine ⟨hhit, hle, fun j hlt hj => ?_⟩
    exact Nat.not_le.mpr hlt (hleast ⟨Nat.le_of_lt (Nat.lt_of_lt_of_le hlt hle), hj⟩)

/-- Nothing is found when no exponent up to the bound has the plaintext as power. -/
theorem decryptExponent_eq_none_iff {x : Ciphertext} {sk : SecretKey} {max : Nat} :
    x.decryptExponent G sk max = none ↔
      ∀ j ≤ max, G.powNat G.generator j ≠ x.decrypt G sk := by
  rw [decryptExponent_eq_find?, List.find?_range_eq_none]
  simp only [Nat.lt_succ_iff, Bool.not_eq_true', ← Bool.not_eq_true, sameValue_decrypt_iff, ne_eq]

/-- What was encrypted is found when the bound allows it. -/
theorem decryptExponent_encrypt (sk : SecretKey) (m r : Scalar) (max : Nat) :
    (encrypt G (PublicKey.ofSecret G sk) m r).decryptExponent G sk max =
      if m.val ≤ max then some m.val else none := by
  have hunique : ∀ j ≤ m.val, G.powNat G.generator j = G.gpow m ↔ j = m.val := fun j hj =>
    Group.powNat_eq_gpow_iff (Nat.lt_of_le_of_lt hj m.isLt)
  split
  · rename_i hle
    rw [decryptExponent_eq_some_iff, decrypt_encrypt]
    refine ⟨⟨hle, rfl⟩, fun j hj => Nat.le_of_not_lt fun hlt => ?_⟩
    exact Nat.ne_of_lt hlt ((hunique j (Nat.le_of_lt hlt)).mp hj.2)
  · rename_i hgt
    rw [decryptExponent_eq_none_iff, decrypt_encrypt]
    intro j hj hhit
    have hlt : j < m.val := Nat.lt_of_le_of_lt hj (Nat.lt_of_not_le hgt)
    exact Nat.ne_of_lt hlt ((hunique j (Nat.le_of_lt hlt)).mp hhit)

/-! ## Encryption and both ways to decrypt -/

/-- Decryption with `sk` goes through the operations on ciphertexts, whose components may
be any elements, and undoes encryption under the key of `sk`. -/
structure Homomorphic (G : Group) (sk : SecretKey) : Prop where
  encrypted : ∀ m r : Scalar,
    (encrypt G (PublicKey.ofSecret G sk) m r).decrypt G sk = G.gpow m
  refreshed : ∀ (x : Ciphertext) (r : Scalar),
    (x.reencrypt G (PublicKey.ofSecret G sk) r).decrypt G sk = x.decrypt G sk
  product : ∀ x y : Ciphertext,
    (x.mul G y).decrypt G sk = G.mul (x.decrypt G sk) (y.decrypt G sk)
  power : ∀ (x : Ciphertext) (k : Scalar), (x.pow G k).decrypt G sk = G.pow (x.decrypt G sk) k
  undone : ∀ nonces : ScalarVector,
    (Row.encryptZeroNeg G (PublicKey.ofSecret G sk) nonces).mul G
        (nonces.map (encryptZero G (PublicKey.ofSecret G sk))) =
      .ok (List.replicate nonces.length (Ciphertext.one G))

/-- The search with `sk` finds the least exponent within the bound, in any ciphertext, and
what was encrypted under the key of `sk`. -/
structure FindsExponents (G : Group) (sk : SecretKey) : Prop where
  found : ∀ (x : Ciphertext) (max m : Nat), x.decryptExponent G sk max = some m ↔
    IsLeast {j | j ≤ max ∧ G.powNat G.generator j = x.decrypt G sk} m
  missed : ∀ (x : Ciphertext) (max : Nat), x.decryptExponent G sk max = none ↔
    ∀ j ≤ max, G.powNat G.generator j ≠ x.decrypt G sk
  encrypted : ∀ (m r : Scalar) (max : Nat),
    (encrypt G (PublicKey.ofSecret G sk) m r).decryptExponent G sk max =
      if m.val ≤ max then some m.val else none

/-- Exponential ElGamal is correct and homomorphic in every group, whether or not its modulus
is prime. -/
theorem encryption_homomorphic (G : Group) (sk : SecretKey) :
    Homomorphic G sk ∧ FindsExponents G sk where
  left := {
    encrypted := decrypt_encrypt sk
    refreshed := fun x r => decrypt_reencrypt x sk r
    product := fun x y => decrypt_mul x y sk
    power := fun x k => decrypt_pow x k sk
    undone := fun nonces => by
      rw [ofSecret_eq]
      exact Row.encryptZeroNeg_mul (sk.exponent • Member.generator G) nonces }
  right := {
    found := fun _ _ _ => decryptExponent_eq_some_iff
    missed := fun _ _ => decryptExponent_eq_none_iff
    encrypted := decryptExponent_encrypt sk }

end Ciphertext

end VerifiableMix
