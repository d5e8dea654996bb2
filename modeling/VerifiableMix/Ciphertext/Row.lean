import VerifiableMix.Ciphertext
import VerifiableMix.Group.Vector
import VerifiableMix.Shape

/-!
# Rows of ciphertexts

A row is a sequence of ciphertexts, such as one ballot.  A row set is a list of
rows; `rowWidth` gives the common width of a row set that has rows, all of one
positive width, and tells what is wrong with any other.
-/

namespace VerifiableMix

/-- A sequence of ciphertexts. -/
abbrev Row := List Ciphertext

namespace Row

/-- Equal widths, and equal values in every column. -/
def sameValues : Row → Row → Bool
  | [], [] => true
  | x :: xs, y :: ys => x.sameValue y && sameValues xs ys
  | _, _ => false

/-- Encrypts every exponent with the paired nonce. -/
def encrypt (G : Group) (pk : PublicKey) (ms rs : ScalarVector) : Except Error Row := do
  checkLength .rowEncrypt ms.length rs.length
  return List.zipWith (Ciphertext.encrypt G pk) ms rs

/-- Re-encrypts every column with the paired nonce. -/
def reencrypt (G : Group) (row : Row) (pk : PublicKey) (nonces : ScalarVector) :
    Except Error Row := do
  checkLength .rowReencrypt row.length nonces.length
  return List.zipWith (fun x r => x.reencrypt G pk r) row nonces

/-- Columnwise product. -/
def mul (G : Group) (xs ys : Row) : Except Error Row := do
  checkLength .rowProduct xs.length ys.length
  return List.zipWith (Ciphertext.mul G) xs ys

/-- Every column raised to `k`. -/
def pow (G : Group) (xs : Row) (k : Scalar) : Row :=
  xs.map fun x => x.pow G k

/-- Encryptions of zero whose nonces are the negated scalars. -/
def encryptZeroNeg (G : Group) (pk : PublicKey) (nonces : ScalarVector) : Row :=
  nonces.map fun r => Ciphertext.encryptZero G pk (-r)

/-- Decrypts every column. -/
def decrypt (G : Group) (row : Row) (sk : SecretKey) : ElementVector :=
  row.map fun x => x.decrypt G sk

/-- Fails unless every component is a member. -/
def validate (G : Group) (row : Row) : Except Error Unit :=
  row.forM (Ciphertext.validate G)

end Row

/-- The common width of a row set. -/
def rowWidth : List Row → Except Error Nat
  | [] => .error (.emptyInput .rowSet)
  | first :: rest =>
    if first.length = 0 then .error (.emptyInput .row)
    else
      match Shape.firstOfOtherLength first.length (first :: rest) with
      | some (row, width) => .error (.invalidWidth row first.length width)
      | none => .ok first.length

/-- Column `k` of a row set. -/
def rowColumn (rows : List Row) (k : Nat) : List Ciphertext :=
  rows.filterMap (·[k]?)

end VerifiableMix
