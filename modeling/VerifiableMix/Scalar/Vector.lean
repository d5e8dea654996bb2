import VerifiableMix.Scalar
import VerifiableMix.Permutation

/-!
# Vectors of scalars

Operations on two vectors check that the lengths agree; they never cut the
longer one.

`permute` and `invert` rearrange a vector along a permutation and back.
`runningProducts` and `recurrence` are the two accumulations from which the
commitment chain takes its exponents, and `shiftIn` moves a vector one place
down to make room for a start value.
-/

namespace VerifiableMix

/-- A vector of scalars. -/
abbrev ScalarVector := List Scalar

namespace ScalarVector

/-- The residues of small numbers. -/
def ofNats (values : List Nat) : ScalarVector :=
  values.map Scalar.ofNat

/-- The sum of the entries. -/
def sum (xs : ScalarVector) : Scalar :=
  xs.foldl (· + ·) 0

/-- The product of the entries. -/
def product (xs : ScalarVector) : Scalar :=
  xs.foldl (· * ·) 1

/-- The entries with their signs changed. -/
def neg (xs : ScalarVector) : ScalarVector :=
  xs.map (- ·)

/-- Every entry times `k`. -/
def scale (xs : ScalarVector) (k : Scalar) : ScalarVector :=
  xs.map (· * k)

/-- The sums of paired entries. -/
def add (xs ys : ScalarVector) : Except Error ScalarVector := do
  checkLength .scalarSum xs.length ys.length
  return List.zipWith (· + ·) xs ys

/-- The products of paired entries. -/
def mul (xs ys : ScalarVector) : Except Error ScalarVector := do
  checkLength .scalarProduct xs.length ys.length
  return List.zipWith (· * ·) xs ys

/-- `xs * k + ys`, the form of every reply that is a vector. -/
def scaleAdd (xs : ScalarVector) (k : Scalar) (ys : ScalarVector) : Except Error ScalarVector :=
  (scale xs k).add ys

/-- The sum of the products of paired entries. -/
def innerProduct (xs ys : ScalarVector) : Except Error Scalar := do
  checkLength .innerProduct xs.length ys.length
  return sum (List.zipWith (· * ·) xs ys)

/-- The form of a vector in diagnostics. -/
def describe (xs : ScalarVector) : String :=
  "VectorQ([" ++ ", ".intercalate (xs.map Scalar.describe) ++ "])"

/-! ## Rearrangement -/

/-- Place `j` of the result holds entry `psi j`. -/
def permute (xs : ScalarVector) (psi : Permutation) : Except Error ScalarVector :=
  if h : psi.size = xs.length then
    .ok (List.ofFn fun j => xs.get ((psi.of j).cast h))
  else .error (.lengthMismatch .permute psi.size xs.length)

/-- Place `j` of the result holds the entry whose index `psi` takes to `j`. -/
def invert (xs : ScalarVector) (psi : Permutation) : Except Error ScalarVector :=
  if h : psi.size = xs.length then
    .ok (List.ofFn fun j => xs.get ((psi.inv j).cast h))
  else .error (.lengthMismatch .invert psi.size xs.length)

/-! ## Accumulation -/

/-- Puts `first` in front and drops the last entry; the length stays. -/
def shiftIn (xs : ScalarVector) (first : Scalar) : ScalarVector :=
  if xs.isEmpty then [] else first :: xs.dropLast

/-- The products of `start` with each nonempty initial part. -/
def productsFrom (start : Scalar) : ScalarVector → ScalarVector
  | [] => []
  | x :: rest => start * x :: productsFrom (start * x) rest

/-- Entry `i` is the product of the entries up to `i`. -/
def runningProducts (xs : ScalarVector) : ScalarVector :=
  productsFrom 1 xs

/-- The recurrence `x ↦ x * weight + offset` from a given predecessor. -/
def recurrenceFrom (previous : Scalar) : ScalarVector → ScalarVector → ScalarVector
  | offset :: offsets, weight :: weights =>
    let next := previous * weight + offset
    next :: recurrenceFrom next offsets weights
  | _, _ => []

/-- The recurrence whose entry 0 is the first offset and whose entry `i` is
entry `i - 1` times weight `i` plus offset `i`; weight 0 plays no part. -/
def recurrence (offsets weights : ScalarVector) : Except Error ScalarVector := do
  checkLength .recurrence offsets.length weights.length
  match offsets, weights with
  | offset :: offsets, _ :: weights => return offset :: recurrenceFrom offset offsets weights
  | _, _ => return []

end ScalarVector

end VerifiableMix
