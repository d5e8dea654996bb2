import VerifiableMix.Proof.Prover
import VerifiableMix.Proof.Verifier

/-!
# Mixing

Shuffling with proof, and verifying such a proof, in one step each.

All that is drawn for a shuffle with proof is a value of `Draws`; given the draws,
`proveShuffle` is a function of the rows.
-/

namespace VerifiableMix

/-! ## Fixed draws -/

/-- The random choices of a shuffle with proof, in the order in which they are drawn. -/
structure Draws where
  /-- Where each row goes. -/
  psi : Permutation
  /-- The re-encryption nonces, by input row. -/
  nonces : ScalarMatrix
  /-- The coins of the prover. -/
  coins : Coins
deriving DecidableEq

/-- Draws all that `n` rows of a width need. -/
def Draws.sample (n width : Nat) : Sampler Draws := do
  let psi ← Permutation.sample n
  let nonces ← Sampler.matrix n width
  let coins ← Coins.sample n width
  return { psi, nonces, coins }

/-- Shuffles rows with given draws and proves the shuffle. -/
def proveShuffle (O : Oracle) (engine : Engine) (G : Group) (mixName : String)
    (pk : PublicKey) (rows : List Row) (draws : Draws) :
    Except Error (List Row × ShuffleProof) := do
  let shuffle ← Shuffle.create G rows pk draws.psi draws.nonces
  let prover ← Prover.ofShuffle engine G mixName pk rows shuffle
  let proof ← prover.prove O draws.coins
  return (shuffle.mixed, proof)

/-! ## In one step -/

/-- Shuffles rows and proves the shuffle; the witness is dropped. -/
def shuffleAndProve (O : Oracle) (engine : Engine) (G : Group) (mixName : String)
    (pk : PublicKey) (rows : List Row) : Sampler (List Row × ShuffleProof) := do
  let shuffle ← Shuffle.sample G rows pk
  let prover ← liftM (Prover.ofShuffle engine G mixName pk rows shuffle)
  let coins ← prover.sampleCoins
  let proof ← liftM (prover.prove O coins)
  return (shuffle.mixed, proof)

/-- Verifies that the mixed rows of a statement are a shuffle of its rows. -/
def verifyShuffle (O : Oracle) (engine : Engine) (G : Group) (s : Statement)
    (proof : ShuffleProof) : Except Error Verdict := do
  let verifier ← Verifier.create engine G s
  verifier.verify O proof

end VerifiableMix
