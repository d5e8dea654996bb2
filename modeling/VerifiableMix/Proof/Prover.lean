import VerifiableMix.Proof
import VerifiableMix.Engine
import VerifiableMix.Shuffle
import VerifiableMix.Commitment.Permutation
import VerifiableMix.Commitment.Chain

/-!
# The prover

The prover knows the statement and the witness of a shuffle.  All its random
choices are one value of `Coins`; given the coins, both messages are functions
of what it knows.

Round one commits to the permutation, draws the batching vector from the
statement, rearranges it to the output, builds the bridges over it and masks
everything.  Round two replies to the challenge.
-/

namespace VerifiableMix

/-- What the prover knows. -/
structure Prover where
  engine : Engine
  group : Group
  mixName : String
  statement : Statement
  psi : Permutation
  nonces : ScalarMatrix

/-- The random choices of the prover, in the order in which they are drawn. -/
structure Coins where
  /-- Nonces of the commitments to the permutation. -/
  permutationNonces : ScalarVector
  /-- Nonces of the bridges. -/
  b : ScalarVector
  alpha : Scalar
  beta : ScalarVector
  gamma : Scalar
  delta : Scalar
  epsilon : ScalarVector
  phi : ScalarVector
deriving DecidableEq, Repr

/-- Draws the coins for `n` rows of a width. -/
def Coins.sample (n width : Nat) : Sampler Coins := do
  let permutationNonces ← Sampler.scalars n
  let b ← Sampler.scalars n
  let alpha ← Sampler.scalar
  let beta ← Sampler.scalars n
  let gamma ← Sampler.scalar
  let delta ← Sampler.scalar
  let epsilon ← Sampler.scalars n
  let phi ← Sampler.scalars width
  return { permutationNonces, b, alpha, beta, gamma, delta, epsilon, phi }

/-- What the prover keeps between the two rounds. -/
structure ProverState (O : Oracle) where
  transcript : O.State
  commitment : ProofCommitment
  /-- The batching vector rearranged to the output. -/
  weights : ScalarVector
  coins : Coins

/-- The reply challenge for the first message. -/
def ProverState.challenge {O : Oracle} (G : Group) (state : ProverState O) : Scalar :=
  replyChallenge O G state.transcript state.commitment

namespace Prover

/-- Checks the shapes of statement and witness. -/
def create (engine : Engine) (G : Group) (mixName : String) (s : Statement) (psi : Permutation)
    (nonces : ScalarMatrix) : Except Error Prover := do
  let width ← rowWidth s.rows
  checkLength .proverMixedRows s.rows.length s.mixed.length
  checkLength .proverMixedWidth width (← rowWidth s.mixed)
  checkLength .proverPermutation s.rows.length psi.size
  checkLength .proverNonceRows s.rows.length nonces.rows
  checkLength .proverNonceColumns width nonces.cols
  return { engine, group := G, mixName, statement := s, psi, nonces }

/-- The prover for the output of a shuffle. -/
def ofShuffle (engine : Engine) (G : Group) (mixName : String) (pk : PublicKey)
    (rows : List Row) (shuffle : Shuffle) : Except Error Prover :=
  create engine G mixName { pk, rows, mixed := shuffle.mixed } shuffle.psi shuffle.nonces

/-- The number of rows. -/
def rowCount (P : Prover) : Nat :=
  P.statement.rows.length

/-! ## Round one -/

/-- The masks of the bridges, in the closed form
`B'ᵢ = g ^ (βᵢ + xᵢ₋₁ εᵢ) * h₀ ^ (yᵢ₋₁ εᵢ)` over the running exponents `x` and
`y` of the bridges. -/
def bridgeMasks (G : Group) (h0 : Element) (xs ys beta epsilon : ScalarVector) :
    ElementVector :=
  let before := (xs.shiftIn 0).zip (ys.shiftIn 1)
  List.zipWith (fun (x, y) (b, e) => G.mul (G.gpow (b + x * e)) (G.pow h0 (y * e)))
    before (beta.zip epsilon)

/-- The mask of the column products. -/
def rowMask (P : Prover) (coins : Coins) : Except Error Row := do
  let mixed ← P.engine.columnPower P.group P.statement.mixed coins.epsilon
  (Row.encryptZeroNeg P.group P.statement.pk coins.phi).mul P.group mixed

/-- The first message, and what is needed to reply. -/
def commit (O : Oracle) (P : Prover) (coins : Coins) : Except Error (ProverState O) := do
  let G := P.group
  let gens ← Generators.deriveAll O G P.mixName none P.rowCount
  let c ← PermutationCommitment.create G P.psi.inverse gens.rows coins.permutationNonces
  let (e, transcript) := batchingVector O G P.mixName gens c.commitments P.statement
  let weights ← e.invert P.psi
  let chain ← CommitmentChain.create G gens.h0 weights coins.b
  let (xs, ys) ← CommitmentChain.runningExponents weights coins.b
  let some d := xs.getLast? | throw (.emptyInput .bridges)
  let generatorMask ← P.engine.powerProduct G gens.rows coins.epsilon
  let rowMask ← P.rowMask coins
  let commitment : ProofCommitment :=
    { u := c.commitments
      d, e
      bridges := chain.commitments
      maskA := G.mul (G.gpow coins.alpha) generatorMask
      bridgeMasks := bridgeMasks G gens.h0 xs ys coins.beta coins.epsilon
      maskC := G.gpow coins.gamma
      maskD := G.gpow coins.delta
      rowMask }
  return { transcript, commitment, weights, coins }

/-! ## Round two -/

/-- The replies to a challenge. -/
def reply {O : Oracle} (P : Prover) (state : ProverState O) (v : Scalar) :
    Except Error ProofReply := do
  let coins := state.coins
  let c := state.commitment
  let a ← coins.permutationNonces.innerProduct c.e
  let f ← P.nonces.columnInnerProduct c.e
  return {
    kA := a * v + coins.alpha
    kB := ← coins.b.scaleAdd v coins.beta
    kC := coins.permutationNonces.sum * v + coins.gamma
    kD := c.d * v + coins.delta
    kE := ← state.weights.scaleAdd v coins.epsilon
    kF := ← f.scaleAdd v coins.phi }

/-- Both rounds, with the challenge of the transcript. -/
def prove (O : Oracle) (P : Prover) (coins : Coins) : Except Error ShuffleProof := do
  let state ← P.commit O coins
  let reply ← P.reply state (state.challenge P.group)
  return { mixName := P.mixName, commitment := state.commitment, reply }

/-- Draws the coins that the prover needs. -/
def sampleCoins (P : Prover) : Sampler Coins :=
  Coins.sample P.rowCount P.nonces.cols

end Prover

end VerifiableMix
