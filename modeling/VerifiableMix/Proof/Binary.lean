import VerifiableMix.Proof
import VerifiableMix.Binary

/-!
# Proofs and rows in binary form

The parts of a row and of a proof in their fixed order.
-/

namespace VerifiableMix.Binary

/-! ## Rows -/

/-- A ciphertext. -/
def putCiphertext (x : Ciphertext) : Bytes :=
  putElement x.pad ++ putElement x.data

/-- A row. -/
def putRow (row : Row) : Bytes :=
  putList putCiphertext row

/-- Reads a ciphertext. -/
def getCiphertext : Reader Ciphertext := do
  let pad ← getElement
  let data ← getElement
  return { pad, data }

/-- Reads a row. -/
def getRow : Reader Row :=
  getList getCiphertext

/-! ## Proofs -/

/-- The first message of a proof. -/
def putCommitment (c : ProofCommitment) : Bytes :=
  putList putElement c.u ++
  putScalar c.d ++
  putList putScalar c.e ++
  putList putElement c.bridges ++
  putElement c.maskA ++
  putList putElement c.bridgeMasks ++
  putElement c.maskC ++
  putElement c.maskD ++
  putRow c.rowMask

/-- The second message of a proof. -/
def putReply (k : ProofReply) : Bytes :=
  putScalar k.kA ++
  putList putScalar k.kB ++
  putScalar k.kC ++
  putScalar k.kD ++
  putList putScalar k.kE ++
  putList putScalar k.kF

/-- Reads the first message of a proof. -/
def getCommitment : Reader ProofCommitment := do
  let u ← getList getElement
  let d ← getScalar
  let e ← getList getScalar
  let bridges ← getList getElement
  let maskA ← getElement
  let bridgeMasks ← getList getElement
  let maskC ← getElement
  let maskD ← getElement
  let rowMask ← getRow
  return { u, d, e, bridges, maskA, bridgeMasks, maskC, maskD, rowMask }

/-- Reads the second message of a proof. -/
def getReply : Reader ProofReply := do
  let kA ← getScalar
  let kB ← getList getScalar
  let kC ← getScalar
  let kD ← getScalar
  let kE ← getList getScalar
  let kF ← getList getScalar
  return { kA, kB, kC, kD, kE, kF }

/-- Reads a proof. -/
def getProof : Reader ShuffleProof := do
  let mixName ← getText
  let commitment ← getCommitment
  let reply ← getReply
  return { mixName, commitment, reply }

end VerifiableMix.Binary

namespace VerifiableMix.ShuffleProof

/-- The binary form of a proof. -/
def toBytes (proof : ShuffleProof) : Bytes :=
  Binary.putText proof.mixName ++ Binary.putCommitment proof.commitment ++
    Binary.putReply proof.reply

/-- The proof at the front of a byte string. -/
def ofBytes (bytes : Bytes) : Except Error ShuffleProof :=
  match Binary.decode Binary.getProof bytes with
  | some proof => .ok proof
  | none => .error .serialization

end VerifiableMix.ShuffleProof
