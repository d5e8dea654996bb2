import VerifiableMix.Main
import VerifiableMix.Group.Lemmas
import VerifiableMix.Proofs.Failure
import VerifiableMix.Proofs.Scalar.Ring
import VerifiableMix.Proofs.Group.Member
import VerifiableMix.Proofs.PowerProduct.Value
import VerifiableMix.Proofs.PowerProduct.Windowed
import VerifiableMix.Proofs.Ciphertext.Row
import VerifiableMix.Proofs.Engine
import VerifiableMix.Proofs.Shuffle
import VerifiableMix.Proofs.Commitment.Chain
import VerifiableMix.Proofs.Commitment.Permutation
import VerifiableMix.Proofs.Proof.Relation
import VerifiableMix.Proofs.Proof.Verifier
import VerifiableMix.Proofs.Commitment.Generators
import VerifiableMix.Proofs.Proof.Prover
import VerifiableMix.Proofs.Scalar.Prime
import VerifiableMix.Proofs.Permutation.Sampling
import VerifiableMix.Proofs.Proof.Verdict
import VerifiableMix.Proofs.Completeness
import VerifiableMix.Proofs.FalseWitness
import VerifiableMix.Proofs.Soundness
import VerifiableMix.Proofs.Indistinguishability
import VerifiableMix.Proofs.PowerProduct.Batched
import VerifiableMix.Proofs.Group.Residue
import VerifiableMix.Proofs.Ciphertext.Decryption
import VerifiableMix.Proofs.Plaintexts
import VerifiableMix.Proofs.Transcript
import VerifiableMix.Proofs.Proof.Totality
import VerifiableMix.Proofs.Cascade
import VerifiableMix.Proofs.Engine.Units
import VerifiableMix.Proofs.Engine.Workers
import VerifiableMix.Proofs.Engine.Agreement
import VerifiableMix.Proofs.Bytes.Hex
import VerifiableMix.Proofs.Text
import VerifiableMix.Proofs.Json
import VerifiableMix.Proofs.Proof.Elements
import VerifiableMix.Proofs.Proof.Json
import VerifiableMix.Proofs.Binary
import VerifiableMix.Proofs.Proof.Binary
import VerifiableMix.Proofs.ZeroKnowledge
import VerifiableMix.Proofs.Membership
import VerifiableMix.Proofs.ReplyBinding
import VerifiableMix.Proofs.Proof.ProverTotality
import VerifiableMix.Proofs.Commitment.Binding
import VerifiableMix.Proofs.Commitment.Batching
import VerifiableMix.Proofs.RowSet
import VerifiableMix.Proofs.CommandLine
import VerifiableMix.Proofs.Relay
import VerifiableMix.Proofs.Permutation.Images
import VerifiableMix.Proofs.Permutation.Uniform
import VerifiableMix.Proofs.Random.Even
import VerifiableMix.Proofs.Random.Tape
import VerifiableMix.Proofs.Draws
import VerifiableMix.Proofs.Commitment.Derivation
import VerifiableMix.Proofs.PowerProduct.Contract
import VerifiableMix.Proofs.Encoding
import VerifiableMix.Proofs.Bytes.Digits
import VerifiableMix.Proofs.Text.Grammar
import VerifiableMix.Proofs.Ciphertext.Exponent
import VerifiableMix.Proofs.PowerProduct.Kernel
import VerifiableMix.Proofs.Scalar.Rearrangement
import VerifiableMix.Proofs.Scalar.Accumulation
import VerifiableMix.Proofs.Scalar.Matrix
