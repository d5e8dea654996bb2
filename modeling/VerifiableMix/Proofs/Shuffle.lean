import VerifiableMix.Proofs.Ciphertext.Row
import VerifiableMix.Shuffle

/-!
# Shuffles as rearrangements of families

The witness of a shuffle is a permutation and a matrix of nonces.  Here the
permutation is taken as an element `π` of the permutation group of the row
indices, and the matrix as a family `S` of nonce rows.  A shuffle re-encrypts
row `π⁻¹ j` to row `j`; of members it gives the family
`j ↦ R (π⁻¹ j) + S (π⁻¹ j) • z`, where the multiples of `z` are the encryptions
of zero.

## Main results

* `invert_ofFn`, `permute_ofFn` — `invert` reads a vector along `π⁻¹`, `permute` along `π`.
* `columnInnerProduct_ofFn` — the weighted sum of the nonce rows.
* `Shuffle.create_rowsOf`, `Shuffle.create_rowSet` — the output of a shuffle.
-/

namespace VerifiableMix

open VerifiableMix.Group Failure

variable {G : Group} {n w : Nat}

/-! ## Permutations -/

/-- A permutation of `n` indices as an element of the permutation group. -/
def Permutation.toPerm (psi : Permutation) (h : psi.size = n) : Equiv.Perm (Fin n) where
  toFun i := (psi.of (i.cast h.symm)).cast h
  invFun i := (psi.inv (i.cast h.symm)).cast h
  left_inv i := by simp
  right_inv i := by simp

/-- The inverse permutation as the inverse in the permutation group. -/
theorem Permutation.toPerm_inverse (psi : Permutation) (h : psi.inverse.size = n) :
    psi.inverse.toPerm h = (psi.toPerm h).symm :=
  rfl

/-- Inverting a vector reads it along the inverse permutation. -/
theorem ScalarVector.invert_ofFn (psi : Permutation) (h : psi.size = n) (x : Fin n → Scalar) :
    invert (List.ofFn x) psi = .ok (List.ofFn fun j => x ((psi.toPerm h).symm j)) := by
  subst h
  have hlength : psi.size = (List.ofFn x).length := (List.length_ofFn).symm
  rw [invert, dif_pos hlength]
  congr 2
  funext j
  show (List.ofFn x).get _ = x (psi.inv j)
  simp

/-- Permuting a vector reads it along the permutation. -/
theorem ScalarVector.permute_ofFn (psi : Permutation) (h : psi.size = n) (x : Fin n → Scalar) :
    permute (List.ofFn x) psi = .ok (List.ofFn fun i => x (psi.toPerm h i)) := by
  subst h
  have hlength : psi.size = (List.ofFn x).length := (List.length_ofFn).symm
  rw [permute, dif_pos hlength]
  congr 2
  funext i
  show (List.ofFn x).get _ = x (psi.of i)
  simp

/-! ## Nonce matrices -/

namespace ScalarMatrix

/-- A matrix as a family of rows. -/
def family (m : ScalarMatrix) (hrows : m.rows = n) (hcols : m.cols = w) :
    Fin n → Fin w → Scalar :=
  fun i k => m.entry (i.cast hrows.symm) (k.cast hcols.symm)

/-- The entries of the family, looked up by number. -/
theorem get?_eq_family (m : ScalarMatrix) (hrows : m.rows = n) (hcols : m.cols = w) (i : Fin n)
    (k : Fin w) : m.get? i k = some (m.family hrows hcols i k) := by
  subst hrows hcols
  rw [get?, dif_pos i.isLt, dif_pos k.isLt]
  rfl

/-- Row `i` of a matrix. -/
theorem row_eq (m : ScalarMatrix) (hrows : m.rows = n) (hcols : m.cols = w) (i : Fin n) :
    m.row (i.cast hrows.symm) = List.ofFn (m.family hrows hcols i) := by
  subst hcols
  rfl

/-- The weighted sum of the nonce rows, column by column. -/
theorem columnInnerProduct_ofFn (m : ScalarMatrix) (hrows : m.rows = n) (hcols : m.cols = w)
    (e : Fin n → Scalar) :
    m.columnInnerProduct (List.ofFn e) =
      .ok (List.ofFn fun k => ∑ i, m.family hrows hcols i k * e i) := by
  subst hrows hcols
  rw [columnInnerProduct, List.length_ofFn, checkLength_self, ok_bind, columnList]
  have hcolumn : ∀ column ∈ List.ofFn m.column,
      column.innerProduct (List.ofFn e) =
        .ok (ScalarVector.sum (List.zipWith (· * ·) column (List.ofFn e))) := by
    intro column hcolumn
    obtain ⟨k, rfl⟩ := List.mem_ofFn.mp hcolumn
    rw [ScalarVector.innerProduct, column, List.length_ofFn, List.length_ofFn, checkLength_self]
    rfl
  rw [mapM_eq_ok hcolumn, List.map_ofFn]
  congr 2
  funext k
  show ScalarVector.sum (List.zipWith _ (List.ofFn _) (List.ofFn e)) = _
  rw [zipWith_ofFn, ScalarVector.sum_ofFn]
  rfl

end ScalarMatrix

/-! ## Shuffles -/

namespace Shuffle

/-- The rows of a shuffle along `π` with nonces `S`. -/
def output (pk : Member G) (R : Fin n → Fin w → Cipher G) (pi : Equiv.Perm (Fin n))
    (S : Fin n → Fin w → Scalar) : Fin n → Fin w → Cipher G :=
  fun j k => R (pi.symm j) k + S (pi.symm j) k • zeroBase pk

/-- A shuffle succeeds only on a witness whose shape is that of the rows. -/
theorem shape_of_create {rows : List Row} {pk : PublicKey} {psi : Permutation}
    {nonces : ScalarMatrix} {shuffle : Shuffle}
    (h : Shuffle.create G rows pk psi nonces = .ok shuffle) :
    rowWidth rows = .ok nonces.cols ∧ psi.size = rows.length ∧ nonces.rows = rows.length := by
  obtain ⟨width, hwidth, hrest⟩ := bind_eq_ok_iff.mp h
  by_cases hpsi : rows.length = psi.size
  · rw [dif_pos hpsi] at hrest
    by_cases hrows : rows.length = nonces.rows
    · rw [dif_pos hrows] at hrest
      obtain ⟨_, hcols, _⟩ := bind_eq_ok_iff.mp hrest
      rw [checkLength_eq_ok_iff] at hcols
      exact ⟨hcols ▸ hwidth, hpsi.symm, hrows.symm⟩
    · rw [dif_neg hrows] at hrest
      cases hrest
  · rw [dif_neg hpsi] at hrest
    cases hrest

/-- The output of a shuffle, whatever the entries of the rows are. -/
theorem create_rowsOf (hw : 0 < w) (R : Fin (n + 1) → Fin w → Ciphertext) (pk : PublicKey)
    (psi : Permutation) (nonces : ScalarMatrix) (hpsi : psi.size = n + 1)
    (hrows : nonces.rows = n + 1) (hcols : nonces.cols = w) :
    Shuffle.create G (rowsOf R) pk psi nonces =
      .ok { mixed := rowsOf fun j k =>
              (R ((psi.toPerm hpsi).symm j) k).reencrypt G pk
                (nonces.family hrows hcols ((psi.toPerm hpsi).symm j) k)
            nonces
            psi } := by
  have hsize : (rowsOf R).length = psi.size := by rw [length_rowsOf, hpsi]
  have hmatrix : (rowsOf R).length = nonces.rows := by rw [length_rowsOf, hrows]
  rw [create, rowWidth_rowsOf hw, ok_bind, dif_pos hsize, dif_pos hmatrix, hcols,
    checkLength_self, ok_bind]
  let mixed : Fin (n + 1) → Row := fun j => List.ofFn fun k =>
    (R ((psi.toPerm hpsi).symm j) k).reencrypt G pk
      (nonces.family hrows hcols ((psi.toPerm hpsi).symm j) k)
  have hunit : ∀ j : Fin psi.size,
      ((rowsOf R).get ((psi.inv j).cast hsize.symm)).reencrypt G pk
          (nonces.row (((psi.inv j).cast hsize.symm).cast hmatrix)) =
        .ok (mixed (j.cast hpsi)) := by
    intro j
    let i : Fin (n + 1) := (psi.inv j).cast hpsi
    have hget : (rowsOf R).get ((psi.inv j).cast hsize.symm) = List.ofFn (R i) :=
      List.get_ofFn (fun i => List.ofFn (R i)) _
    have hrow := nonces.row_eq hrows hcols i
    have hcast : ((psi.inv j).cast hsize.symm).cast hmatrix = i.cast hrows.symm := rfl
    rw [hget, hcast, hrow, Row.reencrypt_ofFn]
    rfl
  rw [mapM_finRange_eq_ok hunit, List.ofFn_congr hpsi]
  rfl

/-- The output of a shuffle of members. -/
theorem create_rowSet (pk : Member G) (hw : 0 < w) (R : Fin (n + 1) → Fin w → Cipher G)
    (psi : Permutation) (nonces : ScalarMatrix) (hpsi : psi.size = n + 1)
    (hrows : nonces.rows = n + 1) (hcols : nonces.cols = w) :
    Shuffle.create G (rowSet R) ⟨pk.element⟩ psi nonces =
      .ok { mixed := rowSet (output pk R (psi.toPerm hpsi) (nonces.family hrows hcols))
            nonces
            psi } := by
  rw [rowSet_eq, create_rowsOf hw _ _ psi nonces hpsi hrows hcols, rowSet_eq]
  simp only [Ciphertext.reencrypt_cipher]
  rfl

end Shuffle

end VerifiableMix
