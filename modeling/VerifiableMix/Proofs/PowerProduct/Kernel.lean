import VerifiableMix.Proofs.PowerProduct.Table

/-!
# The windowed kernel at every width

The kernel serves any width of the windows and any number of bits.  Its tables belong
to consecutive windows of the bases, the last of which may be shorter, and its scan
reads the low bits of the exponents, however wide these are.

## Main results

* `holdsWindows_tables` — the tables of the windows, one after the other.
* `windowedKernel_exact` — tables and scan at every width.
-/

namespace VerifiableMix.PowerProduct

variable {width modulus : Nat}

/-- A table has an entry for every subset of its window: the product of the bases at the
set bits of the mask.  Filling it in place gives the same table. -/
structure IsTableOf (modulus : Nat) (window : List Nat) (table : Array Nat) : Prop where
  size_eq : table.size = 2 ^ window.length
  entry_eq : ∀ mask < 2 ^ window.length,
    table[mask]? = some ((∏ i : Fin window.length with mask.testBit i, window[i]) % modulus)
  inPlace : table = fillInPlace modulus window

/-- There is a table for every window, and the windows hold every base once, in order. -/
structure HoldsWindows (width modulus : Nat) (bases : List Nat) (found : List (Array Nat)) :
    Prop where
  count_eq : found.length = (bases.length + (width - 1)) / width
  covered : ((List.range found.length).map (pieceAt width bases)).flatten = bases
  isTable : ∀ k table, found[k]? = some table →
    IsTableOf modulus (pieceAt width bases k) table

theorem isTableOf_subsetProducts (hm : 0 < modulus) {window : List Nat}
    (hword : window.length ≤ 64) : IsTableOf modulus window (subsetProducts modulus window) where
  size_eq := size_subsetProducts window
  entry_eq mask hmask := by
    rw [subsetProducts_getElem? hm window hmask, subsetProduct_eq_prod, Finset.prod_filter]
    rfl
  inPlace := (fillInPlace_eq hm hword).symm

/-- The tables of the windows, one after the other. -/
theorem holdsWindows_tables (hwidth : 0 < width) (hword : width ≤ 64) (hm : 0 < modulus)
    (bases : List Nat) : HoldsWindows width modulus bases (tables width modulus bases) := by
  have hpieces := chunks_eq_map_pieceAt hwidth bases
  have hcount : (tables width modulus bases).length = pieceCount width bases.length := by
    rw [tables, hpieces, List.length_map, List.length_map, List.length_range]
  exact {
    count_eq := hcount
    covered := by rw [hcount, ← hpieces, flatten_chunks hwidth]
    isTable := fun k table htable => by
      rw [tables, hpieces, List.map_map, List.getElem?_map, Option.map_eq_some_iff] at htable
      obtain ⟨k', hk', rfl⟩ := htable
      obtain ⟨_, rfl⟩ := List.getElem?_eq_some_iff.mp hk'
      rw [List.getElem_range]
      have hwindow : (pieceAt width bases k).length ≤ 64 := by
        rw [pieceAt, List.length_take]
        exact Nat.le_trans (Nat.min_le_left _ _) hword
      exact isTableOf_subsetProducts hm hwindow }

/-- The kernel at every width that a word has room for: its tables hold the subset products of
consecutive windows, and the scan of any number of bits gives the product of the powers to the
exponents' low bits. -/
theorem windowedKernel_exact (hwidth : 1 ≤ width) (hword : width ≤ 63) (hm : 1 ≤ modulus)
    (bases : List Nat) :
    HoldsWindows width modulus bases (tables width modulus bases) ∧
    ∀ (bits : Nat) (exps : List Nat), bases.length = exps.length →
      windowedScan width modulus bits bases exps =
        value bases (exps.map (· % 2 ^ bits)) % modulus :=
  ⟨holdsWindows_tables hwidth (Nat.le_succ_of_le hword) hm bases,
    fun bits _ hlength => windowedScan_eq hwidth hm hlength bits⟩

/-- Three bases in windows of two leave a short window; one base is unreduced, another is
zero, and two of the exponents are wider than three bits. -/
theorem windowedKernel_exact_shortWindow :
    (tables 2 10 [13, 0, 7]).length = 2 ∧
    (∀ table, (tables 2 10 [13, 0, 7])[0]? = some table → table = #[1, 3, 0, 0]) ∧
    (∀ table, (tables 2 10 [13, 0, 7])[1]? = some table → table = #[1, 7]) ∧
    windowedScan 2 10 3 [13, 0, 7] [2, 8, 11] = 7 := by
  obtain ⟨htables, hscan⟩ := @windowedKernel_exact 2 10 (by decide) (by decide) (by decide)
    [13, 0, 7]
  refine ⟨htables.count_eq, fun table h => ?_, fun table h => ?_, hscan 3 [2, 8, 11] rfl⟩
  · rw [(htables.isTable 0 table h).inPlace]
    decide +kernel
  · rw [(htables.isTable 1 table h).inPlace]
    decide +kernel

end VerifiableMix.PowerProduct
