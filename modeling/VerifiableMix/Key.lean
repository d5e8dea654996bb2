import VerifiableMix.Group
import VerifiableMix.Random.Sampler

/-!
# Keys

A secret key is an exponent, and its public key the generator raised to it.  A
public key that comes from outside is checked for membership by
`PublicKey.create` and `PublicKey.ofBytes`.
-/

namespace VerifiableMix

/-- A secret exponent. -/
structure SecretKey where
  exponent : Scalar
deriving DecidableEq, Repr

/-- The element under which rows are encrypted. -/
structure PublicKey where
  key : Element
deriving DecidableEq, Repr

namespace SecretKey

/-- Draws a secret key; zero is never one, since it would hide nothing. -/
def sample : Sampler SecretKey := do
  return ⟨← Sampler.nonzeroScalar⟩

/-- The encoding of a secret key. -/
def toBytes (sk : SecretKey) : Bytes :=
  sk.exponent.toBytes

/-- The secret key that a byte string encodes. -/
def ofBytes (bytes : Bytes) : Except Error SecretKey :=
  (Scalar.ofBytes bytes).map SecretKey.mk

end SecretKey

namespace PublicKey

/-- Takes an element as a public key, if it is a member. -/
def create (G : Group) (key : Element) : Except Error PublicKey := do
  G.checkElement key
  return ⟨key⟩

/-- The public key of a secret key. -/
def ofSecret (G : Group) (sk : SecretKey) : PublicKey :=
  ⟨G.gpow sk.exponent⟩

/-- The encoding of a public key. -/
def toBytes (G : Group) (pk : PublicKey) : Bytes :=
  G.toBytes pk.key

/-- The public key that a byte string encodes. -/
def ofBytes (G : Group) (bytes : Bytes) : Except Error PublicKey :=
  (G.ofBytes bytes).map PublicKey.mk

/-- Fails unless the public key belongs to the secret key. -/
def checkPair (G : Group) (pk : PublicKey) (sk : SecretKey) : Except Error Unit :=
  if (G.gpow sk.exponent).sameValue pk.key then .ok () else .error .keyMismatch

end PublicKey

/-- A secret key with its public key. -/
structure KeyPair where
  secretKey : SecretKey
  publicKey : PublicKey

/-- Draws a key pair. -/
def KeyPair.sample (G : Group) : Sampler KeyPair := do
  let secretKey ← SecretKey.sample
  return { secretKey, publicKey := PublicKey.ofSecret G secretKey }

end VerifiableMix
