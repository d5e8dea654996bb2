import VerifiableMix.Transcript
import VerifiableMix.Commitment.Generators

/-!
# Proofs of shuffle

A proof shows that one row set is a permutation and re-encryption of another.
It has two messages: commitments, and replies to a challenge.  Both challenges
of the protocol are drawn from a transcript of the statement and of the first
message: the batching vector `e`, with one weight per input row, and the reply
challenge `v`.

The letters are those of the protocol.  With `psi` the permutation of the
shuffle, `w` the weights rearranged to the output (`w_j` belongs to the input
row that landed at `j`) and `B₋₁ = h₀`, the replies are linear in `v`:

* `kA` for `A = ∏ uⱼ ^ eⱼ`, masked by `A' = g ^ α * ∏ hᵢ ^ εᵢ`;
* `kB` and `kE` for the bridges `Bᵢ = g ^ bᵢ * Bᵢ₋₁ ^ wᵢ`, masked by
  `B'ᵢ = g ^ βᵢ * Bᵢ₋₁ ^ εᵢ`;
* `kC` for `C = ∏ uⱼ / ∏ hᵢ`, masked by `C' = g ^ γ`;
* `kD` for `D = Bₙ₋₁ / h₀ ^ ∏ eᵢ`, masked by `D' = g ^ δ`;
* `kF` for the columns `F = ∏ rowᵢ ^ eᵢ`, masked by
  `F' = Enc(0; -φ) * ∏ mixedⱼ ^ εⱼ`.
-/

namespace VerifiableMix

/-- What a proof is about: the key, the input rows and the mixed rows. -/
structure Statement where
  pk : PublicKey
  rows : List Row
  mixed : List Row
deriving DecidableEq, Repr

/-- The first message of the prover. -/
structure ProofCommitment where
  /-- The commitments to the permutation. -/
  u : ElementVector
  /-- The last running exponent of the bridges. -/
  d : Scalar
  /-- The batching vector. -/
  e : ScalarVector
  /-- The bridges `B`. -/
  bridges : ElementVector
  /-- The mask `A'`. -/
  maskA : Element
  /-- The masks `B'` of the bridges. -/
  bridgeMasks : ElementVector
  /-- The mask `C'`. -/
  maskC : Element
  /-- The mask `D'`. -/
  maskD : Element
  /-- The mask `F'`, one ciphertext per column. -/
  rowMask : Row
deriving DecidableEq, Repr

/-- The second message of the prover. -/
structure ProofReply where
  kA : Scalar
  kB : ScalarVector
  kC : Scalar
  kD : Scalar
  kE : ScalarVector
  kF : ScalarVector
deriving DecidableEq, Repr

/-- A proof of shuffle. -/
structure ShuffleProof where
  /-- The name of the mix, to which generators and challenges are bound. -/
  mixName : String
  commitment : ProofCommitment
  reply : ProofReply
deriving DecidableEq, Repr

/-! ## Well-formedness -/

/-- Fails unless the vectors have the lengths for `n` rows of a width. -/
def ShuffleProof.checkLengths (proof : ShuffleProof) (n width : Nat) : Except Error Unit := do
  let c := proof.commitment
  let k := proof.reply
  checkLength .proofCommitments n c.u.length
  checkLength .proofBatching n c.e.length
  checkLength .proofBridges n c.bridges.length
  checkLength .proofBridgeMasks n c.bridgeMasks.length
  checkLength .proofRowMask width c.rowMask.length
  checkLength .proofBridgeReplies n k.kB.length
  checkLength .proofWeightReplies n k.kE.length
  checkLength .proofRowReplies width k.kF.length

/-- Fails unless every element of the first message is a member. -/
def ProofCommitment.checkMembers (G : Group) (c : ProofCommitment) : Except Error Unit := do
  c.u.validate G
  c.bridges.validate G
  c.bridgeMasks.validate G
  G.checkElement c.maskA
  G.checkElement c.maskC
  G.checkElement c.maskD
  c.rowMask.validate G

/-- Fails unless lengths and members are right for `n` rows of a width. -/
def ShuffleProof.validate (G : Group) (proof : ShuffleProof) (n width : Nat) :
    Except Error Unit := do
  proof.checkLengths n width
  proof.commitment.checkMembers G

/-! ## What the challenges are bound to -/

/-- The label of every transcript of a proof. -/
def challengePurpose : String := "mixnet-shuffle/challenges/v1"

/-- The entries that bind the batching vector to the statement. -/
def statementEntries (G : Group) (mixName : String) (gens : Generators) (u : ElementVector)
    (s : Statement) : List Entry :=
  [.separator "proof-of-shuffle",
    .text "mix_name" mixName,
    .element G "g" G.generator,
    .element G "h0" gens.h0] ++
  Entry.elements G "generators" gens.rows ++
  Entry.elements G "u" u ++
  [.element G "pk" s.pk.key] ++
  Entry.rows G "rows" s.rows ++
  Entry.rows G "mixed" s.mixed

/-- The entries that bind the reply challenge to the first message. -/
def commitmentEntries (G : Group) (c : ProofCommitment) : List Entry :=
  Entry.elements G "u" c.u ++
  [.scalar "d" c.d] ++
  Entry.scalars "e" c.e ++
  Entry.elements G "B" c.bridges ++
  [.element G "A'" c.maskA] ++
  Entry.elements G "B'" c.bridgeMasks ++
  [.element G "C'" c.maskC, .element G "D'" c.maskD] ++
  Entry.row G "F'" c.rowMask

/-- The batching vector of a statement, and the transcript after it. -/
def batchingVector (O : Oracle) (G : Group) (mixName : String) (gens : Generators)
    (u : ElementVector) (s : Statement) : ScalarVector × O.State :=
  let t := O.absorbAll (O.transcript challengePurpose) (statementEntries G mixName gens u s)
  O.challenges t "e" s.rows.length

/-- The reply challenge for a first message. -/
def replyChallenge (O : Oracle) (G : Group) (t : O.State) (c : ProofCommitment) : Scalar :=
  (O.challenge (O.absorbAll t (commitmentEntries G c)) "v").1

end VerifiableMix
