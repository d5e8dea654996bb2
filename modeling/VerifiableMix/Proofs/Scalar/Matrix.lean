import VerifiableMix.Proofs.Shuffle

/-!
# Matrices and the rows they are made of

A matrix is made of rows of one width by storing them one after the other, so that entry
`j` of row `i` stands behind `i` whole rows.  All that a matrix answers follows from this:
its entries, rows and columns are those of the list, and the sum over a column weighs every
row by its own weight.  Rows and weights may then be rearranged together.

## Main results

* `ofRows_eq_error_iff` — which lists make no matrix, and what is reported of them.
* `get?_of_ofRows` — the entries of a matrix.
* `columnInnerProduct_of_permuted` — rows and weights rearranged together.
* `ofRows_exact` — what a matrix answers.
-/

namespace VerifiableMix.ScalarMatrix

open Failure

variable {rows : List ScalarVector} {m : ScalarMatrix}

/-! ## Making a matrix -/

/-- The list has no row, or the first row whose width is not that of the first row is
reported with both widths. -/
def Refused (rows : List ScalarVector) (error : Error) : Prop :=
  rows = [] ∧ error = .emptyInput .matrix ∨
  ∃ (first row : ScalarVector) (i : Nat), rows.head? = some first ∧ rows[i]? = some row ∧
    row.length ≠ first.length ∧
    (∀ j < i, ∀ other, rows[j]? = some other → other.length = first.length) ∧
    error = .invalidWidth i first.length row.length

theorem ofRows_cons_of_fault {first : ScalarVector} {rest : List ScalarVector} {i width : Nat}
    (h : Shape.firstOfOtherLength first.length (first :: rest) = some (i, width)) :
    ofRows (first :: rest) = .error (.invalidWidth i first.length width) := by
  rw [ofRows]
  split
  · rename_i hsome
    obtain ⟨rfl, rfl⟩ := Prod.mk.inj (Option.some.inj (hsome.symm.trans h))
    rfl
  · rename_i hnone
    cases hnone.symm.trans h

/-- Rows of one width make a matrix that stores them one after the other. -/
theorem exists_ofRows_cons {first : ScalarVector} {rest : List ScalarVector}
    (h : Shape.firstOfOtherLength first.length (first :: rest) = none) :
    ∃ m, ofRows (first :: rest) = .ok m ∧ m.rows = (first :: rest).length ∧
      m.cols = first.length ∧ m.entries.toArray = (first :: rest).flatten.toArray := by
  rw [ofRows]
  split
  · rename_i hsome
    cases hsome.symm.trans h
  · exact ⟨_, rfl, rfl, rfl, rfl⟩

theorem ofRows_eq_error_iff {error : Error} : ofRows rows = .error error ↔ Refused rows error := by
  cases rows with
  | nil => simp [ofRows, Refused, eq_comm]
  | cons first rest =>
      cases hfault : Shape.firstOfOtherLength first.length (first :: rest) with
      | none =>
          obtain ⟨m, hm, _⟩ := exists_ofRows_cons hfault
          rw [hm]
          refine iff_of_false (fun h => by cases h) ?_
          rintro (⟨hnil, _⟩ | ⟨other, row, i, hother, hrow, hne, _⟩)
          · cases hnil
          · obtain rfl : first = other := Option.some.inj hother
            have hrect := Shape.firstOfOtherLength_eq_none_iff.mp hfault
            exact hne (hrect row (List.mem_of_getElem? hrow))
      | some fault =>
          obtain ⟨i, width⟩ := fault
          obtain ⟨row, hrow, rfl, hne, hbefore⟩ := Shape.firstOfOtherLength_eq_some_iff.mp hfault
          rw [ofRows_cons_of_fault hfault]
          constructor
          · intro h
            exact .inr ⟨first, row, i, rfl, hrow, hne, hbefore, (Except.error.inj h).symm⟩
          · rintro (⟨hnil, _⟩ | ⟨other, row', i', hother, hrow', hne', hbefore', rfl⟩)
            · cases hnil
            · obtain rfl : first = other := Option.some.inj hother
              have hfault' := Shape.firstOfOtherLength_eq_some_iff.mpr
                ⟨row', hrow', rfl, hne', hbefore'⟩
              obtain ⟨rfl, hwidth⟩ := Prod.mk.inj (Option.some.inj (hfault.symm.trans hfault'))
              rw [hwidth]

/-- Lists of rows of one width make a matrix, and only these. -/
theorem exists_ofRows_iff : (∃ m, ofRows rows = .ok m) ↔
    ∃ first, rows.head? = some first ∧ ∀ row ∈ rows, row.length = first.length := by
  cases rows with
  | nil => simp [ofRows]
  | cons first rest =>
      have hhead : (∃ other, (first :: rest).head? = some other ∧
          ∀ row ∈ first :: rest, row.length = other.length) ↔
          Shape.firstOfOtherLength first.length (first :: rest) = none := by
        rw [Shape.firstOfOtherLength_eq_none_iff]
        simp
      rw [hhead]
      cases hfault : Shape.firstOfOtherLength first.length (first :: rest) with
      | none =>
          obtain ⟨m, hm, _⟩ := exists_ofRows_cons hfault
          exact iff_of_true ⟨m, hm⟩ rfl
      | some fault =>
          rw [ofRows_cons_of_fault hfault]
          exact iff_of_false (fun ⟨_, h⟩ => by cases h) (fun h => by cases h)

/-- What a matrix that was made is made of. -/
theorem stored_of_ofRows (h : ofRows rows = .ok m) :
    m.rows = rows.length ∧ (∀ row ∈ rows, row.length = m.cols) ∧
      m.entries.toArray = rows.flatten.toArray := by
  cases rows with
  | nil => cases h
  | cons first rest =>
      cases hfault : Shape.firstOfOtherLength first.length (first :: rest) with
      | none =>
          obtain ⟨m', hm', hrows, hcols, hentries⟩ := exists_ofRows_cons hfault
          obtain rfl : m' = m := Except.ok.inj (hm'.symm.trans h)
          refine ⟨hrows, ?_, hentries⟩
          rw [hcols]
          exact Shape.firstOfOtherLength_eq_none_iff.mp hfault
      | some fault =>
          rw [ofRows_cons_of_fault hfault] at h
          cases h

/-! ## Entries, rows and columns -/

/-- The entries of a matrix are those of its rows, and outside there is nothing. -/
theorem get?_of_ofRows (h : ofRows rows = .ok m) (i j : Nat) :
    m.get? i j = rows[i]?.bind fun row => row[j]? := by
  obtain ⟨hrows, hcols, hentries⟩ := stored_of_ofRows h
  by_cases hi : i < m.rows
  · by_cases hj : j < m.cols
    · have hplace := index_lt hi hj
      have hstored : some (m.entry ⟨i, hi⟩ ⟨j, hj⟩) = m.entries.toArray[i * m.cols + j]? := by
        rw [entry, Vector.getElem?_toArray, Vector.getElem?_eq_getElem hplace]
      rw [get?, dif_pos hi, dif_pos hj, hstored, hentries, List.getElem?_toArray,
        Shape.getElem?_flatten_of_rectangular hcols i hj]
    · have hrow : rows[i]? = some rows[i] := List.getElem?_eq_getElem (hrows ▸ hi)
      have hwide : rows[i].length ≤ j :=
        (hcols _ (List.getElem_mem _)).trans_le (Nat.le_of_not_lt hj)
      rw [get?, dif_pos hi, dif_neg hj, hrow, Option.bind_some, List.getElem?_eq_none hwide]
  · have hrow : rows[i]? = none := List.getElem?_eq_none (hrows ▸ Nat.le_of_not_lt hi)
    rw [get?, dif_neg hi, hrow, Option.bind_none]

/-- Rows with a width can be listed, and they are the rows that the matrix was made of. -/
theorem rowList?_of_ofRows (h : ofRows rows = .ok m) (hcols : 0 < m.cols) :
    m.rowList? = some rows := by
  obtain ⟨hrows, hwidth, _⟩ := stored_of_ofRows h
  rw [rowList?, if_neg fun hnone => Nat.ne_of_gt hcols hnone.2]
  refine congrArg some (List.ext_getElem (by rw [List.length_ofFn, hrows]) fun i hi hi' => ?_)
  rw [List.length_ofFn] at hi
  rw [List.getElem_ofFn]
  refine List.ext_getElem? fun j => ?_
  have hentry := get?_of_ofRows h i j
  rw [List.getElem?_eq_getElem hi', Option.bind_some] at hentry
  rw [← hentry, row, List.getElem?_ofFn, get?, dif_pos hi]

/-- Entry `i` of column `j`. -/
theorem getElem?_columnList (m : ScalarMatrix) (i j : Nat) :
    (m.columnList[j]?.bind fun column => column[i]?) = m.get? i j := by
  rw [columnList, List.getElem?_ofFn, get?]
  by_cases hj : j < m.cols
  · rw [dif_pos hj, Option.bind_some, column, List.getElem?_ofFn]
    simp only [dif_pos hj]
  · rw [dif_neg hj, Option.bind_none]
    split <;> rfl

/-! ## Sums over columns -/

theorem columnInnerProduct_of_length_ne {e : ScalarVector} (h : e.length ≠ m.rows) :
    m.columnInnerProduct e =
      .error (.lengthMismatch .columnInnerProduct m.rows e.length) := by
  rw [columnInnerProduct, checkLength_of_ne (Ne.symm h), error_bind]

/-- Matrices with the same rows in another order have the same column sums when the weights
are rearranged with the rows. -/
theorem columnInnerProduct_of_permuted {m' : ScalarMatrix} {psi : Permutation}
    (hsize : psi.size = m.rows) (hrows : m'.rows = m.rows) (hcols : m'.cols = m.cols)
    (hentry : ∀ (i : Fin psi.size) (j : Nat), m'.get? i j = m.get? (psi.of i) j)
    {e e' : ScalarVector} (he : ScalarVector.permute e psi = .ok e') :
    m'.columnInnerProduct e' = m.columnInnerProduct e := by
  by_cases hlength : e.length = psi.size
  · obtain ⟨c, rfl⟩ := exists_eq_ofFn (hlength.trans hsize)
    rw [ScalarVector.permute_ofFn psi hsize] at he
    obtain rfl := Except.ok.inj he
    rw [columnInnerProduct_ofFn m' hrows hcols, columnInnerProduct_ofFn m rfl rfl]
    refine congrArg Except.ok (congrArg List.ofFn (funext fun j => ?_))
    have hterm : ∀ i, m'.family hrows hcols i j = m.family rfl rfl (psi.toPerm hsize i) j := by
      intro i
      apply Option.some.inj
      rw [← get?_eq_family, ← get?_eq_family]
      exact hentry (i.cast hsize.symm) j
    simp only [hterm]
    exact Equiv.sum_comp (psi.toPerm hsize) fun i => m.family rfl rfl i j * c i
  · rw [ScalarVector.permute, dif_neg (Ne.symm hlength)] at he
    cases he

/-! ## What a matrix answers -/

/-- A matrix answers as its rows do: entries, rows and columns, and the sums over the columns
with given weights.  With its rows rearranged it gives the same sums for the weights rearranged
in the same way. -/
structure Holds (m : ScalarMatrix) (rows : List ScalarVector) : Prop where
  rows_eq : m.rows = rows.length
  cols_eq : ∀ row ∈ rows, row.length = m.cols
  get?_eq : ∀ i j, m.get? i j = rows[i]?.bind fun row => row[j]?
  rowList?_eq : 1 ≤ m.cols → m.rowList? = some rows
  columnList_eq : ∀ i j, (m.columnList[j]?.bind fun column => column[i]?) = m.get? i j
  entry_eq : ∀ (i : Fin m.rows) (j : Fin m.cols), m.get? i j = some (m.entry i j)
  columnInnerProduct_eq : ∀ e : Fin m.rows → Scalar,
    m.columnInnerProduct (List.ofFn e) = .ok (List.ofFn fun j => ∑ i, m.entry i j * e i)
  refused : ∀ e : ScalarVector, e.length ≠ m.rows →
    m.columnInnerProduct e = .error (.lengthMismatch .columnInnerProduct m.rows e.length)
  permuted : ∀ (psi : Permutation) (h : psi.size = rows.length),
    ∃ m', ofRows (List.ofFn fun i => rows.get ((psi.of i).cast h)) = .ok m' ∧
      ∀ e e', ScalarVector.permute e psi = .ok e' →
        m'.columnInnerProduct e' = m.columnInnerProduct e

/-- Rows in another order make a matrix, too, and its column sums are the same. -/
theorem exists_permuted (h : ofRows rows = .ok m) (psi : Permutation)
    (hsize : psi.size = rows.length) :
    ∃ m', ofRows (List.ofFn fun i => rows.get ((psi.of i).cast hsize)) = .ok m' ∧
      ∀ e e', ScalarVector.permute e psi = .ok e' →
        m'.columnInnerProduct e' = m.columnInnerProduct e := by
  obtain ⟨hrows, hcols, _⟩ := stored_of_ofRows h
  let moved : List ScalarVector := List.ofFn fun i => rows.get ((psi.of i).cast hsize)
  have hwidth : ∀ row ∈ moved, row.length = m.cols := by
    intro row hrow
    obtain ⟨i, rfl⟩ := List.mem_ofFn.mp hrow
    exact hcols _ (List.get_mem _ _)
  have hmoved : ∀ i : Fin psi.size, moved[i.val]? = rows[(psi.of i).val]? := by
    intro i
    rw [getElem?_ofFn]
    exact (List.getElem?_eq_getElem _).symm
  obtain ⟨first, hfirst⟩ : ∃ first, moved.head? = some first := by
    obtain ⟨first, hfirst, _⟩ := exists_ofRows_iff.mp ⟨m, h⟩
    have hpos : 0 < psi.size := by
      rw [hsize]
      exact List.length_pos_of_mem (List.mem_of_mem_head? hfirst)
    have hplace : 0 < moved.length := by
      rw [List.length_ofFn]
      exact hpos
    exact ⟨moved[0], by rw [List.head?_eq_getElem?, List.getElem?_eq_getElem hplace]⟩
  have hmem := List.mem_of_mem_head? hfirst
  obtain ⟨m', hm'⟩ := exists_ofRows_iff.mpr
    ⟨first, hfirst, fun row hrow => (hwidth row hrow).trans (hwidth first hmem).symm⟩
  obtain ⟨hrows', hcols', _⟩ := stored_of_ofRows hm'
  refine ⟨m', hm', fun e e' he => columnInnerProduct_of_permuted (hsize.trans hrows.symm) ?_ ?_
    (fun i j => ?_) he⟩
  · rw [hrows', hrows, ← hsize, List.length_ofFn]
  · rw [← hcols' first hmem, hwidth first hmem]
  · rw [get?_of_ofRows hm', get?_of_ofRows h, hmoved i]

/-- A list of rows makes a matrix exactly when it has a first row and all rows have its width,
and the matrix then holds the rows; any other list is refused for being empty or for its first
row of another width. -/
theorem ofRows_exact (rows : List ScalarVector) :
    ((∃ m, ofRows rows = .ok m) ↔
      ∃ first, rows.head? = some first ∧ ∀ row ∈ rows, row.length = first.length) ∧
    (∀ m, ofRows rows = .ok m → m.Holds rows) ∧
    ∀ error, ofRows rows = .error error ↔ Refused rows error := by
  refine ⟨exists_ofRows_iff, fun m h => ?_, fun error => ofRows_eq_error_iff⟩
  obtain ⟨hrows, hcols, _⟩ := stored_of_ofRows h
  exact {
    rows_eq := hrows
    cols_eq := hcols
    get?_eq := get?_of_ofRows h
    rowList?_eq := rowList?_of_ofRows h
    columnList_eq := getElem?_columnList m
    entry_eq := m.get?_eq_family rfl rfl
    columnInnerProduct_eq := columnInnerProduct_ofFn m rfl rfl
    refused := fun _ => columnInnerProduct_of_length_ne
    permuted := exists_permuted h }

end VerifiableMix.ScalarMatrix
