import VerifiableMix.Ciphertext.Row
import VerifiableMix.Permutation.Sampling

/-!
# The shuffle

Input row `i` is re-encrypted with nonce row `i` and lands at place `psi i`, so
that place `j` of the output holds input row `psi⁻¹ j`.  The permutation and
the nonces are the witness of the shuffle; they stay out of diagnostics.
-/

namespace VerifiableMix

/-- The output of a shuffle and its witness. -/
structure Shuffle where
  /-- The permuted, re-encrypted rows. -/
  mixed : List Row
  /-- The re-encryption nonces, by input row. -/
  nonces : ScalarMatrix
  /-- Where each input row went. -/
  psi : Permutation

namespace Shuffle

/-- Shuffles rows with a given permutation and nonces. -/
def create (G : Group) (rows : List Row) (pk : PublicKey) (psi : Permutation)
    (nonces : ScalarMatrix) : Except Error Shuffle := do
  let width ← rowWidth rows
  if hpsi : rows.length = psi.size then
    if hrows : rows.length = nonces.rows then
      checkLength .shuffleNonceColumns width nonces.cols
      let mixed ← (List.finRange psi.size).mapM fun j =>
        let i := (psi.inv j).cast hpsi.symm
        (rows.get i).reencrypt G pk (nonces.row (i.cast hrows))
      return { mixed, nonces, psi }
    else throw (.lengthMismatch .shuffleNonceRows rows.length nonces.rows)
  else throw (.lengthMismatch .shufflePermutation rows.length psi.size)

/-- Shuffles rows with a random permutation and random nonces. -/
def sample (G : Group) (rows : List Row) (pk : PublicKey) : Sampler Shuffle := do
  let width ← liftM (rowWidth rows)
  let psi ← Permutation.sample rows.length
  let nonces ← Sampler.matrix rows.length width
  liftM (create G rows pk psi nonces)

/-- The form of a shuffle in diagnostics, without its witness. -/
def describe (shuffle : Shuffle) : String :=
  "Shuffle \x7b nrows: " ++ toString shuffle.mixed.length ++ ", width: " ++
    toString shuffle.nonces.cols ++ ", nonces: \"<redacted>\", psi: \"<redacted>\" \x7d"

end Shuffle

end VerifiableMix
