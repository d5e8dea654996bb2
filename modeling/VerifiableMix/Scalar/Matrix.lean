import VerifiableMix.Scalar.Vector
import VerifiableMix.Shape

/-!
# Matrices of scalars

The re-encryption nonces of a shuffle form a matrix with one row per input row
and one column per ciphertext.  The entries are stored row after row, and the
number of entries is part of the type.

A matrix can have rows of width zero; such rows cannot be listed, because
nothing in the store tells where one begins.
-/

namespace VerifiableMix

/-- A matrix of scalars, stored row after row. -/
structure ScalarMatrix where
  rows : Nat
  cols : Nat
  entries : Vector Scalar (rows * cols)
deriving DecidableEq

namespace ScalarMatrix

/-- The place of an entry in the store lies inside it. -/
theorem index_lt {rows cols i j : Nat} (hi : i < rows) (hj : j < cols) :
    i * cols + j < rows * cols :=
  calc i * cols + j < i * cols + cols := Nat.add_lt_add_left hj _
    _ = (i + 1) * cols := (Nat.succ_mul i cols).symm
    _ ≤ rows * cols := Nat.mul_le_mul_right cols hi

/-- The matrix with the given rows, which must all have one width. -/
def ofRows : List ScalarVector → Except Error ScalarMatrix
  | [] => .error (.emptyInput .matrix)
  | first :: rest =>
    match h : Shape.firstOfOtherLength first.length (first :: rest) with
    | some (row, width) => .error (.invalidWidth row first.length width)
    | none =>
      .ok
        { rows := (first :: rest).length
          cols := first.length
          entries := ⟨(first :: rest).flatten.toArray, by
            simpa using Shape.length_flatten_of_rectangular
              (Shape.firstOfOtherLength_eq_none_iff.mp h)⟩ }

/-- The entry in row `i` and column `j`. -/
def entry (m : ScalarMatrix) (i : Fin m.rows) (j : Fin m.cols) : Scalar :=
  have := index_lt i.isLt j.isLt
  m.entries[i.val * m.cols + j.val]

/-- The entry in row `i` and column `j`, or nothing outside the matrix. -/
def get? (m : ScalarMatrix) (i j : Nat) : Option Scalar :=
  if hi : i < m.rows then
    if hj : j < m.cols then some (m.entry ⟨i, hi⟩ ⟨j, hj⟩) else none
  else none

/-- Row `i`. -/
def row (m : ScalarMatrix) (i : Fin m.rows) : ScalarVector :=
  List.ofFn fun j => m.entry i j

/-- Column `j`. -/
def column (m : ScalarMatrix) (j : Fin m.cols) : ScalarVector :=
  List.ofFn fun i => m.entry i j

/-- All rows in order, unless the matrix has rows and they have no width. -/
def rowList? (m : ScalarMatrix) : Option (List ScalarVector) :=
  if 0 < m.rows ∧ m.cols = 0 then none else some (List.ofFn m.row)

/-- All columns in order. -/
def columnList (m : ScalarMatrix) : List ScalarVector :=
  List.ofFn m.column

/-- For every column, the inner product with the weights. -/
def columnInnerProduct (m : ScalarMatrix) (weights : ScalarVector) :
    Except Error ScalarVector := do
  checkLength .columnInnerProduct m.rows weights.length
  m.columnList.mapM fun column => column.innerProduct weights

end ScalarMatrix

end VerifiableMix
