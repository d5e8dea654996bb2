import VerifiableMix.Key

/-!
# Exponential ElGamal

The encryption of an exponent `m` under the key `pk` with nonce `r` is the
pair `(g ^ r, g ^ m * pk ^ r)`.  The product of ciphertexts adds exponents, a
power scales them, and the product with an encryption of zero refreshes the
nonce.

Decryption gives `g ^ m`; the exponent itself is found by trying `0, 1, …` up
to a bound.
-/

namespace VerifiableMix

/-- An encryption: the generator's power and the masked message. -/
structure Ciphertext where
  pad : Element
  data : Element
deriving DecidableEq, Repr

namespace Ciphertext

/-- Equality of both components by value. -/
def sameValue (x y : Ciphertext) : Bool :=
  x.pad.sameValue y.pad && x.data.sameValue y.data

/-- The encryption of zero with neither message nor nonce. -/
def one (G : Group) : Ciphertext :=
  { pad := G.one, data := G.one }

/-- Encrypts the exponent `m` with nonce `r`. -/
def encrypt (G : Group) (pk : PublicKey) (m r : Scalar) : Ciphertext :=
  { pad := G.gpow r, data := G.mul (G.gpow m) (G.pow pk.key r) }

/-- Encrypts zero with nonce `r`. -/
def encryptZero (G : Group) (pk : PublicKey) (r : Scalar) : Ciphertext :=
  { pad := G.gpow r, data := G.pow pk.key r }

/-- Componentwise product. -/
def mul (G : Group) (x y : Ciphertext) : Ciphertext :=
  { pad := G.mul x.pad y.pad, data := G.mul x.data y.data }

/-- Componentwise power. -/
def pow (G : Group) (x : Ciphertext) (k : Scalar) : Ciphertext :=
  { pad := G.pow x.pad k, data := G.pow x.data k }

/-- The same message under a nonce that is larger by `r`. -/
def reencrypt (G : Group) (x : Ciphertext) (pk : PublicKey) (r : Scalar) : Ciphertext :=
  mul G x (encryptZero G pk r)

/-- The generator's power whose exponent was encrypted. -/
def decrypt (G : Group) (x : Ciphertext) (sk : SecretKey) : Element :=
  G.div x.data (G.pow x.pad sk.exponent)

/-- The first of `count` exponents from `m` on whose power of the generator is
the target; `power` is the power for `m`. -/
def findExponent (G : Group) (target : Element) : Nat → Nat → Element → Option Nat
  | 0, _, _ => none
  | count + 1, m, power =>
    if power.sameValue target then some m
    else findExponent G target count (m + 1) (G.mul power G.generator)

/-- The least exponent up to `max` that the ciphertext encrypts. -/
def decryptExponent (G : Group) (x : Ciphertext) (sk : SecretKey) (max : Nat) : Option Nat :=
  findExponent G (x.decrypt G sk) (max + 1) 0 G.one

/-- Fails unless both components are members. -/
def validate (G : Group) (x : Ciphertext) : Except Error Unit := do
  G.checkElement x.pad
  G.checkElement x.data

end Ciphertext

end VerifiableMix
