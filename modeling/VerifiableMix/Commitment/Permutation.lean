import VerifiableMix.Group.Vector
import VerifiableMix.Random.Sampler

/-!
# Commitments to permutations

A permutation is committed to place by place: commitment `j` is
`g ^ rⱼ * h_{π⁻¹(j)}`, one generator per index, hidden by a nonce.
-/

namespace VerifiableMix

/-- The commitments to a permutation and their nonces. -/
structure PermutationCommitment where
  commitments : ElementVector
  nonces : ScalarVector
deriving DecidableEq, Repr

namespace PermutationCommitment

/-- Commits to a permutation with the given nonces. -/
def create (G : Group) (pi : Permutation) (generators : ElementVector) (nonces : ScalarVector) :
    Except Error PermutationCommitment :=
  if hg : pi.size = generators.length then
    if hn : pi.size = nonces.length then
      .ok
        { commitments := List.ofFn fun j : Fin pi.size =>
            G.mul (G.gpow (nonces.get (j.cast hn))) (generators.get ((pi.inv j).cast hg))
          nonces }
    else .error (.lengthMismatch .commitmentNonces pi.size nonces.length)
  else .error (.lengthMismatch .commitmentGenerators pi.size generators.length)

/-- Commits to a permutation with fresh nonces, which are drawn before
anything is checked. -/
def sample (G : Group) (pi : Permutation) (generators : ElementVector) :
    Sampler PermutationCommitment := do
  let nonces ← Sampler.scalars pi.size
  liftM (create G pi generators nonces)

/-- Do the commitments open to the permutation with the stored nonces? -/
def opensTo (G : Group) (c : PermutationCommitment) (pi : Permutation)
    (generators : ElementVector) : Bool :=
  match create G pi generators c.nonces with
  | .ok again => again.commitments.sameValues c.commitments
  | .error _ => false

/-- The sum of the nonces. -/
def nonceSum (c : PermutationCommitment) : Scalar :=
  c.nonces.sum

end PermutationCommitment

end VerifiableMix
