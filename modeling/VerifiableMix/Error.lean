/-!
# Errors of the mix

Every error is a precondition that failed: data of the wrong shape, an
encoding of the wrong width, a number outside the group.  A well-formed proof
that does not verify is *not* an error; the verifier answers it with a
verdict.

An `Error` records the cause; `Error.message` is the one place where causes
are put into words.
-/

namespace VerifiableMix

/-- The places where two lengths are compared before anything is computed. -/
inductive LengthCheck where
  | scalarSum
  | scalarProduct
  | innerProduct
  | permute
  | invert
  | recurrence
  | elementProduct
  | elementPower
  | columnInnerProduct
  | rowEncrypt
  | rowReencrypt
  | rowProduct
  | directBatch
  | windowedBatch
  | batchedPower
  | bytePower
  | vectorPower
  | columnPower
  | plainColumnPower
  | commitmentGenerators
  | commitmentNonces
  | chainNonces
  | chainLinks
  | shufflePermutation
  | shuffleNonceRows
  | shuffleNonceColumns
  | proverMixedRows
  | proverMixedWidth
  | proverPermutation
  | proverNonceRows
  | proverNonceColumns
  | verifierMixedRows
  | verifierMixedWidth
  | proofCommitments
  | proofBatching
  | proofBridges
  | proofBridgeMasks
  | proofRowMask
  | proofBridgeReplies
  | proofWeightReplies
  | proofRowReplies
deriving DecidableEq, Repr

/-- The name under which a failed length comparison is reported. -/
def LengthCheck.name : LengthCheck → String
  | scalarSum => "VectorQ::add"
  | scalarProduct => "VectorQ::mul"
  | innerProduct => "VectorQ::inner_product"
  | permute => "VectorQ::permute"
  | invert => "VectorQ::invert"
  | recurrence => "VectorQ::rec_lin"
  | elementProduct => "VectorP::mul"
  | elementPower => "VectorP::pow"
  | columnInnerProduct => "MatrixQ::column_inner_product"
  | rowEncrypt => "VectorCiphertext::encrypt"
  | rowReencrypt => "VectorCiphertext::reencrypt"
  | rowProduct => "VectorCiphertext::mul"
  | directBatch => "DirectProdPow::prod_pow"
  | windowedBatch => "WindowedProdPow::prod_pow"
  | batchedPower => "prod_pow_batched"
  | bytePower => "prod_pow_bytes"
  | vectorPower => "Engine::prod_pow"
  | columnPower => "Engine::prod_column_pow"
  | plainColumnPower => "prod_column_pow_direct"
  | commitmentGenerators => "PermutationCommitment::generators"
  | commitmentNonces => "PermutationCommitment::nonces"
  | chainNonces => "CommitmentChain::nonces"
  | chainLinks => "chain_recursive"
  | shufflePermutation => "Shuffle::permutation"
  | shuffleNonceRows => "Shuffle::nonce rows"
  | shuffleNonceColumns => "Shuffle::nonce columns"
  | proverMixedRows => "ShuffleProver::mixed rows"
  | proverMixedWidth => "ShuffleProver::mixed width"
  | proverPermutation => "ShuffleProver::permutation"
  | proverNonceRows => "ShuffleProver::nonce rows"
  | proverNonceColumns => "ShuffleProver::nonce columns"
  | verifierMixedRows => "ShuffleVerifier::mixed rows"
  | verifierMixedWidth => "ShuffleVerifier::mixed width"
  | proofCommitments => "proof u"
  | proofBatching => "proof e"
  | proofBridges => "proof B"
  | proofBridgeMasks => "proof B'"
  | proofRowMask => "proof F'"
  | proofBridgeReplies => "proof k_B"
  | proofWeightReplies => "proof k_E"
  | proofRowReplies => "proof k_F"

/-- The inputs that must hold at least one entry. -/
inductive NonemptyInput where
  | rowSet
  | row
  | matrix
  | modulus
  | bridges
deriving DecidableEq, Repr

/-- The name under which an empty input is reported. -/
def NonemptyInput.name : NonemptyInput → String
  | rowSet => "row set"
  | row => "row"
  | matrix => "MatrixQ::from_rows"
  | modulus => "modulus"
  | bridges => "rows"

/-- Why a list of indices is no permutation of `0, …, n - 1`. -/
inductive IndexFault where
  | outOfRange
  | repeated
deriving DecidableEq, Repr

/-- The wording of an index fault. -/
def IndexFault.message : IndexFault → String
  | outOfRange => "index out of range"
  | repeated => "repeated index"

/-- Why three numbers are no group parameters. -/
inductive ParameterFault where
  | modulus
  | generatorRange
  | generatorOrder
deriving DecidableEq, Repr

/-- The wording of a parameter fault. -/
def ParameterFault.message : ParameterFault → String
  | modulus => "p is not q * r + 1"
  | generatorRange => "generator out of range"
  | generatorOrder => "generator order is not q"

/-- Why a text is no natural number of machine size. -/
inductive NumberFault where
  | empty
  | invalidDigit
  | tooLarge
deriving DecidableEq, Repr

/-- The wording of a number fault. -/
def NumberFault.message : NumberFault → String
  | empty => "cannot parse integer from empty string"
  | invalidDigit => "invalid digit found in string"
  | tooLarge => "number too large to fit in target type"

/-- Why a setting is refused. -/
inductive SettingFault where
  | workers (text : String) (fault : NumberFault)
  | unknownBackend (name : String)
deriving DecidableEq, Repr

/-- The environment variable that holds the number of workers. -/
def workersVariable : String := "MIXNET_THREADS"

/-- The environment variable that names the exponentiation backend. -/
def backendVariable : String := "MIXNET_PRODPOW"

/-- The wording of a setting fault; the text is quoted as it was given. -/
def SettingFault.message : SettingFault → String
  | workers text fault => workersVariable ++ "=" ++ text ++ ": " ++ fault.message
  | unknownBackend name => "unknown exponentiation backend \x60" ++ name ++ "\x60"

/-- The causes for which an operation of the mix gives no result. -/
inductive Error where
  /-- Two operands that must have the same length do not. -/
  | lengthMismatch (check : LengthCheck) (expected actual : Nat)
  /-- An operation that needs at least one entry got none. -/
  | emptyInput (input : NonemptyInput)
  /-- The rows do not all have the width of the first. -/
  | invalidWidth (row expected actual : Nat)
  /-- A number is no member of the subgroup of order `q`. -/
  | notInSubgroup
  /-- A scalar is not below `q`, or an exponent is wider than 256 bits. -/
  | scalarOutOfRange
  /-- More bases than a windowed batch may hold. -/
  | batchTooLarge (size max : Nat)
  /-- An encoding does not have the required width. -/
  | invalidEncoding (expected actual : Nat)
  /-- The modulus of an exponentiation is zero. -/
  | invalidModulus
  /-- A list of indices is no permutation. -/
  | invalidPermutation (fault : IndexFault)
  /-- A public key does not belong to a secret key. -/
  | keyMismatch
  /-- Three numbers are no group parameters. -/
  | invalidGroup (fault : ParameterFault)
  /-- A setting cannot be used. -/
  | configuration (fault : SettingFault)
  /-- A stored object cannot be decoded. -/
  | serialization
  /-- Every attempt counter was tried and none gave a generator. -/
  | generatorNotFound (index : Nat)
  /-- Rejection sampling rejected every draw it was allowed. -/
  | samplingExhausted
deriving DecidableEq, Repr

/-- The wording of an error. -/
def Error.message : Error → String
  | lengthMismatch check expected actual =>
    s!"length mismatch in {check.name}: expected {expected}, got {actual}"
  | emptyInput input => s!"empty input to {input.name}"
  | invalidWidth row expected actual => s!"row {row} has width {actual}, expected {expected}"
  | notInSubgroup => "element is not a member of the order-q subgroup"
  | scalarOutOfRange => "scalar is out of range"
  | batchTooLarge size max => s!"batch of {size} bases exceeds the maximum batch size {max}"
  | invalidEncoding expected actual => s!"encoding has {actual} bytes, expected {expected}"
  | invalidModulus => "modulus must be nonzero"
  | invalidPermutation fault => s!"not a permutation: {fault.message}"
  | keyMismatch => "public key does not match the secret key"
  | invalidGroup fault => s!"invalid group parameters: {fault.message}"
  | configuration fault => s!"configuration error: {fault.message}"
  | serialization => "serialization error"
  | generatorNotFound index => s!"no attempt gave generator {index}"
  | samplingExhausted => "no draw was accepted"

/-- Fails unless the two lengths agree. -/
def checkLength (check : LengthCheck) (expected actual : Nat) : Except Error Unit :=
  if expected = actual then .ok () else .error (.lengthMismatch check expected actual)

@[simp] theorem checkLength_eq_ok_iff {check : LengthCheck} {expected actual : Nat} {u : Unit} :
    checkLength check expected actual = .ok u ↔ expected = actual := by
  unfold checkLength; split <;> simp_all

end VerifiableMix
