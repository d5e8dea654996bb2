import VerifiableMix.Proof
import VerifiableMix.Engine

/-!
# The verifier

The verifier holds a statement whose shapes and members it has checked.  A
proof that is malformed is an error; of a well-formed proof it checks the
batching vector and then one equation after the other, and the verdict names
the first that fails.

Every equation has the form `X ^ v * X' = …`, with the masks and replies of the
proof; see the module on proofs for the letters.
-/

namespace VerifiableMix

/-- The first check that a well-formed proof fails. -/
inductive Rejection where
  | batchingVector
  | permutationCommitment
  | bridge (row : Nat)
  | commitmentSum
  | bridgeProduct
  | reencryption
deriving DecidableEq, Repr

/-- The wording of a rejection. -/
def Rejection.message : Rejection → String
  | batchingVector => "batching vector does not match the statement"
  | permutationCommitment => "permutation commitment equation failed"
  | bridge _ => "bridging commitment equation failed"
  | commitmentSum => "permutation commitment sum equation failed"
  | bridgeProduct => "bridging commitment product equation failed"
  | reencryption => "re-encryption equation failed"

/-- The answer to a well-formed proof. -/
inductive Verdict where
  | accepted
  | rejected (reason : Rejection)
deriving DecidableEq, Repr

/-- Does the verdict accept? -/
def Verdict.isAccepted : Verdict → Bool
  | accepted => true
  | rejected _ => false

/-- A checked statement. -/
structure Verifier where
  engine : Engine
  group : Group
  statement : Statement
  width : Nat

namespace Verifier

/-- Checks a row and the mixed row at its place. -/
def checkPair (G : Group) (pair : Row × Row) : Except Error Unit := do
  pair.1.validate G
  pair.2.validate G

/-- Checks row by row that both row sets hold members; the workers share the rows. -/
def checkRows (engine : Engine) (G : Group) (rows mixed : List Row) : Except Error Unit := do
  let _ ← engine.runEach (rows.zip mixed) (checkPair G)

/-- Checks the shapes of both row sets and the members of rows and key. -/
def create (engine : Engine) (G : Group) (s : Statement) : Except Error Verifier := do
  let width ← rowWidth s.rows
  checkLength .verifierMixedRows s.rows.length s.mixed.length
  checkLength .verifierMixedWidth width (← rowWidth s.mixed)
  G.checkElement s.pk.key
  checkRows engine G s.rows s.mixed
  return { engine, group := G, statement := s, width }

/-- The number of rows. -/
def rowCount (V : Verifier) : Nat :=
  V.statement.rows.length

/-! ## The equations -/

/-- Does `x ^ v * mask` have the same value as `target`? -/
def opens (G : Group) (v : Scalar) (x mask target : Element) : Bool :=
  (G.mul (G.pow x v) mask).sameValue target

/-- `A ^ v * A' = g ^ kA * ∏ hᵢ ^ kEᵢ` with `A = ∏ uⱼ ^ eⱼ`. -/
def permutationEquation (V : Verifier) (gens : Generators) (c : ProofCommitment)
    (k : ProofReply) (e : ScalarVector) (v : Scalar) : Except Error Bool := do
  let a ← V.engine.powerProduct V.group c.u e
  let generatorPart ← V.engine.powerProduct V.group gens.rows k.kE
  return opens V.group v a c.maskA (V.group.mul (V.group.gpow k.kA) generatorPart)

/-- The first `i` for which `Bᵢ ^ v * B'ᵢ = g ^ kBᵢ * Bᵢ₋₁ ^ kEᵢ` fails, where
`previous` stands before the first bridge. -/
def firstBrokenBridge (G : Group) (v : Scalar) (previous : Element) :
    List Element → List Element → List Scalar → List Scalar → Option Nat
  | bridge :: bridges, mask :: masks, kB :: kBs, kE :: kEs =>
    if opens G v bridge mask (G.mul (G.gpow kB) (G.pow previous kE)) then
      (firstBrokenBridge G v bridge bridges masks kBs kEs).map (· + 1)
    else some 0
  | _, _, _, _ => none

/-- `C ^ v * C' = g ^ kC` with `C = ∏ uⱼ / ∏ hᵢ`. -/
def sumEquation (V : Verifier) (gens : Generators) (c : ProofCommitment) (k : ProofReply)
    (v : Scalar) : Bool :=
  let G := V.group
  opens G v (G.div (G.prod c.u) (G.prod gens.rows)) c.maskC (G.gpow k.kC)

/-- `D ^ v * D' = g ^ kD` with `D = last / h₀ ^ ∏ eᵢ`. -/
def productEquation (V : Verifier) (gens : Generators) (c : ProofCommitment) (k : ProofReply)
    (e : ScalarVector) (v : Scalar) (last : Element) : Bool :=
  let G := V.group
  opens G v (G.div last (G.pow gens.h0 e.product)) c.maskD (G.gpow k.kD)

/-- `F ^ v * F' = Enc(0; -kF) * ∏ mixedⱼ ^ kEⱼ` with `F = ∏ rowᵢ ^ eᵢ`. -/
def reencryptionEquation (V : Verifier) (c : ProofCommitment) (k : ProofReply)
    (e : ScalarVector) (v : Scalar) : Except Error Bool := do
  let G := V.group
  let f ← V.engine.columnPower G V.statement.rows e
  let left ← (f.pow G v).mul G c.rowMask
  let mixed ← V.engine.columnPower G V.statement.mixed k.kE
  let right ← (Row.encryptZeroNeg G V.statement.pk k.kF).mul G mixed
  return left.sameValues right

/-- Checks the equations in order, at given challenges. -/
def checkEquations (V : Verifier) (gens : Generators) (c : ProofCommitment) (k : ProofReply)
    (e : ScalarVector) (v : Scalar) : Except Error Verdict := do
  let some last := c.bridges.getLast? | throw (.emptyInput .bridges)
  unless ← V.permutationEquation gens c k e v do
    return .rejected .permutationCommitment
  if let some row := firstBrokenBridge V.group v gens.h0 c.bridges c.bridgeMasks k.kB k.kE then
    return .rejected (.bridge row)
  unless V.sumEquation gens c k v do
    return .rejected .commitmentSum
  unless V.productEquation gens c k e v last do
    return .rejected .bridgeProduct
  unless ← V.reencryptionEquation c k e v do
    return .rejected .reencryption
  return .accepted

/-- Verifies a proof of the statement. -/
def verify (O : Oracle) (V : Verifier) (proof : ShuffleProof) : Except Error Verdict := do
  let G := V.group
  let c := proof.commitment
  proof.validate G V.rowCount V.width
  let gens ← Generators.deriveAll O G proof.mixName none V.rowCount
  let (e, t) := batchingVector O G proof.mixName gens c.u V.statement
  if e = c.e then
    V.checkEquations gens c proof.reply e (replyChallenge O G t c)
  else return .rejected .batchingVector

end Verifier

end VerifiableMix
