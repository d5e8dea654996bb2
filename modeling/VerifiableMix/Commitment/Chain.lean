import VerifiableMix.Group.Vector
import VerifiableMix.Random.Sampler

/-!
# Commitment chains

A chain commits to a vector `u` from a base `h`, link by link: link `i` is
`g ^ rᵢ` times the previous link raised to `uᵢ`, where the base stands before
link 0.  Every link binds all entries up to its own.

Written out, link `i` is `g ^ Rᵢ * h ^ Uᵢ` with the running exponents
`Rᵢ = rᵢ + uᵢ * Rᵢ₋₁` and `Uᵢ = uᵢ * Uᵢ₋₁`.  `create` uses this closed form, in
which the links do not wait for each other; `links` goes link by link.
-/

namespace VerifiableMix

/-- The links of a chain and their nonces. -/
structure CommitmentChain where
  commitments : ElementVector
  nonces : ScalarVector
deriving DecidableEq, Repr

namespace CommitmentChain

/-- The running exponents of the generator and of the base. -/
def runningExponents (u nonces : ScalarVector) : Except Error (ScalarVector × ScalarVector) := do
  checkLength .chainNonces u.length nonces.length
  return (← nonces.recurrence u, u.runningProducts)

/-- The chain over `u` with the given nonces, in closed form. -/
def create (G : Group) (h : Element) (u nonces : ScalarVector) :
    Except Error CommitmentChain := do
  let (rs, us) ← runningExponents u nonces
  let commitments := List.zipWith (fun r u => G.mul (G.gpow r) (G.pow h u)) rs us
  return { commitments, nonces }

/-- The chain over `u` with fresh nonces, which are drawn before anything is
checked. -/
def sample (G : Group) (h : Element) (u : ScalarVector) : Sampler CommitmentChain := do
  let nonces ← Sampler.scalars u.length
  liftM (create G h u nonces)

/-- Does the chain over `u` with the stored nonces have the stored links? -/
def rederives (G : Group) (chain : CommitmentChain) (h : Element) (u : ScalarVector) : Bool :=
  match create G h u chain.nonces with
  | .ok again => again.commitments.sameValues chain.commitments
  | .error _ => false

/-- The last link. -/
def last? (chain : CommitmentChain) : Option Element :=
  chain.commitments.getLast?

/-- The links that follow a given link, one after the other. -/
def linksFrom (G : Group) (previous : Element) : ScalarVector → ScalarVector → ElementVector
  | u :: us, r :: rs =>
    let link := G.mul (G.gpow r) (G.pow previous u)
    link :: linksFrom G link us rs
  | _, _ => []

/-- The links of the chain over `u`, one after the other. -/
def links (G : Group) (h : Element) (u nonces : ScalarVector) : Except Error ElementVector := do
  checkLength .chainLinks u.length nonces.length
  return linksFrom G h u nonces

end CommitmentChain

end VerifiableMix
