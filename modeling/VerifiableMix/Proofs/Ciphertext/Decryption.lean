import Mathlib.Tactic.Ring
import VerifiableMix.Proofs.Ciphertext.Row
import VerifiableMix.Proofs.Group.Residue

/-!
# Decryption

Decryption divides the message component by a power of the pad, and a division is
a product with the power `p - 2`.  On residue classes that is a product of powers,
so decryption is multiplicative on ciphertexts whose components were never
checked, and for a modulus that need not be prime.  Only an encryption has to be a
ciphertext of members, as it always is under the key of `sk`: there the division
cancels.

## Main results

* `decrypt_mul`, `decrypt_pow` — decryption goes through products and powers.
* `decrypt_encrypt` — decryption undoes encryption.
* `decrypt_reencrypt` — re-encryption keeps the plaintext.
-/

namespace VerifiableMix.Ciphertext

open VerifiableMix.Group

variable {G : Group}

theorem cast_decrypt (x : Ciphertext) (sk : SecretKey) :
    ((x.decrypt G sk).value : ZMod G.p) =
      x.data.value * ((x.pad.value : ZMod G.p) ^ sk.exponent.val) ^ (G.p - 2) := by
  rw [decrypt, Group.div, cast_mul, cast_inv, cast_pow]

/-- Decryption is multiplicative. -/
theorem decrypt_mul (x y : Ciphertext) (sk : SecretKey) :
    (x.mul G y).decrypt G sk = G.mul (x.decrypt G sk) (y.decrypt G sk) := by
  rw [decrypt, Group.div]
  apply mul_congr
  rw [cast_inv, cast_pow, cast_decrypt, cast_decrypt, Ciphertext.mul, cast_mul, cast_mul]
  ring

/-- Decryption goes through powers. -/
theorem decrypt_pow (x : Ciphertext) (k : Scalar) (sk : SecretKey) :
    (x.pow G k).decrypt G sk = G.pow (x.decrypt G sk) k := by
  have hclass : ((x.pow G k).data.value : ZMod G.p) *
      (G.inv (G.pow (x.pow G k).pad sk.exponent)).value = (x.decrypt G sk).value ^ k.val := by
    rw [cast_inv, cast_pow, cast_decrypt, Ciphertext.pow, cast_pow, cast_pow]
    ring
  calc (x.pow G k).decrypt G sk
      = G.element ((x.decrypt G sk).value ^ k.val % G.p) :=
        element_congr (by rw [Nat.cast_mul, Nat.cast_pow, hclass])
    _ = G.pow (x.decrypt G sk) k := (powNat_eq G _ _).symm

/-- A ciphertext of members decrypts to a difference. -/
theorem decrypt_cipher (c : Cipher G) (sk : SecretKey) :
    (cipher c).decrypt G sk = (c.2 - sk.exponent • c.1).element := by
  rw [decrypt, cipher, Member.pow_element, Member.div_element]

/-- The key of `sk` as a member. -/
theorem ofSecret_eq (sk : SecretKey) :
    PublicKey.ofSecret G sk = ⟨(sk.exponent • Member.generator G).element⟩ := by
  rw [PublicKey.ofSecret, Member.gpow_eq]

/-- An encryption under the key of `sk` decrypts to the power that was encrypted. -/
theorem decrypt_encrypt (sk : SecretKey) (m r : Scalar) :
    (encrypt G (PublicKey.ofSecret G sk) m r).decrypt G sk = G.gpow m := by
  have hcancel : m • Member.generator G + r • sk.exponent • Member.generator G -
      sk.exponent • (0 + r • Member.generator G) = m • Member.generator G := by
    rw [zero_add, smul_comm, add_sub_cancel_right]
  rw [ofSecret_eq, encrypt_eq, decrypt_cipher, Member.gpow_eq]
  exact congrArg Member.element hcancel

/-- An encryption of zero under the key of `sk` decrypts to one. -/
theorem decrypt_encryptZero (sk : SecretKey) (r : Scalar) :
    (encryptZero G (PublicKey.ofSecret G sk) r).decrypt G sk = G.one := by
  have hcancel : r • sk.exponent • Member.generator G -
      sk.exponent • r • Member.generator G = 0 := by
    rw [smul_comm, sub_self]
  rw [ofSecret_eq, encryptZero_eq, decrypt_cipher, ← Member.element_zero, ← hcancel]
  rfl

/-- Re-encryption keeps the plaintext. -/
theorem decrypt_reencrypt (x : Ciphertext) (sk : SecretKey) (r : Scalar) :
    (x.reencrypt G (PublicKey.ofSecret G sk) r).decrypt G sk = x.decrypt G sk := by
  rw [reencrypt, decrypt_mul, decrypt_encryptZero, decrypt, Group.div, mul_mul_one]

end VerifiableMix.Ciphertext
