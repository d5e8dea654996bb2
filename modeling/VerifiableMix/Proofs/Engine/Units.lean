import VerifiableMix.Engine
import VerifiableMix.Proofs.Ciphertext.Row
import VerifiableMix.Proofs.PowerProduct.Value

/-!
# The units of the engine

The engine numbers its units through.  For a vector, the units are the pieces into
which the vector is cut.  For a row set with `b` batches to a column, unit
`c * b + i` is batch `i` of component `c`, where components `2 k` and `2 k + 1` are
the pads and the datas of column `k`.  So the results come in pieces of `b`, one for
each component, and the pieces in pairs, one for each column: nothing is dropped and
nothing changes its place.

## Main results

* `chunks_maxBatch` — the batches of a list are its pieces.
* `prod_batches` — the values of the batches multiply to the value of the whole.
* `ColumnUnit.ofNumber_add` — what a unit number stands for.
* `columns_of_units` — the results of all units, put together by columns.
-/

namespace VerifiableMix.Engine

open PowerProduct

variable {α β : Type} {n w : Nat}

/-! ## Batches -/

theorem batchCount_pos (hn : 0 < n) : 0 < batchCount n := by
  have hpos := Nat.succ_pos (pieceCount maxBatch (n - maxBatch))
  rw [Nat.succ_eq_add_one, ← pieceCount_of_pos (by decide) hn] at hpos
  exact hpos

theorem length_batch_le (xs : List α) (k : Nat) : (batch xs k).length ≤ maxBatch := by
  rw [batch, List.length_take]
  exact Nat.min_le_left _ _

theorem length_batch_congr {xs : List α} {ys : List β} (h : xs.length = ys.length) (k : Nat) :
    (batch xs k).length = (batch ys k).length := by
  simp only [batch, List.length_take, List.length_drop, h]

theorem mem_of_mem_batch {xs : List α} {x : α} {k : Nat} (h : x ∈ batch xs k) : x ∈ xs :=
  List.mem_of_mem_drop (List.mem_of_mem_take h)

theorem batch_map (f : α → β) (xs : List α) (k : Nat) :
    batch (xs.map f) k = (batch xs k).map f := by
  rw [batch, batch, List.map_take, List.map_drop]

/-- The batches of a list are its pieces. -/
theorem chunks_maxBatch (xs : List α) :
    chunks maxBatch xs = (List.range (batchCount xs.length)).map (batch xs) :=
  chunks_eq_map_pieceAt (by decide) xs

/-- The values of the batches multiply to the value of the whole. -/
theorem prod_batches {bases exps : List Nat} (hlength : bases.length = exps.length) :
    ((List.range (batchCount bases.length)).map fun k =>
      value (batch bases k) (batch exps k)).prod = value bases exps := by
  have hpieces : (chunks maxBatch bases).zip (chunks maxBatch exps) =
      (List.range (batchCount bases.length)).map fun k => (batch bases k, batch exps k) := by
    rw [chunks_maxBatch, chunks_maxBatch, ← hlength, List.zip_map']
  have hprod := prod_chunks (n := maxBatch) (by decide) id hlength
  rw [hpieces, List.map_map] at hprod
  simp only [List.map_id] at hprod
  exact hprod

/-! ## Unit numbers -/

/-- Unit `c * b + i` is batch `i` of component `c`. -/
theorem ColumnUnit.ofNumber_add {batches c i : Nat} (hi : i < batches) :
    ofNumber batches (c * batches + i) = { column := c / 2, isData := c % 2 = 1, batch := i } := by
  have hdiv : (c * batches + i) / batches = c := by
    rw [Nat.mul_comm, Nat.mul_add_div (Nat.zero_lt_of_lt hi), Nat.div_eq_of_lt hi, Nat.add_zero]
  have hmod : (c * batches + i) % batches = i := by
    rw [Nat.mul_add_mod', Nat.mod_eq_of_lt hi]
  have hcolumn : (c * batches + i) / (2 * batches) = c / 2 := by
    rw [Nat.mul_comm 2, ← Nat.div_div_eq_div_mul, hdiv]
  rw [ofNumber, hdiv, hmod, hcolumn]

/-- A number below that of all units stands for a column of the row set. -/
theorem ColumnUnit.column_ofNumber_lt {batches k : Nat} (hbatches : 0 < batches)
    (hk : k < w * 2 * batches) : (ofNumber batches k).column < w := by
  rw [Nat.mul_assoc] at hk
  exact (Nat.div_lt_iff_lt_mul (Nat.mul_pos Nat.two_pos hbatches)).mpr hk

/-- The numbers of one component of a column. -/
def component (R : Fin n → Fin w → Ciphertext) (k : Fin w) (isData : Bool) : List Nat :=
  List.ofFn fun j => if isData then (R j k).data.value else (R j k).pad.value

@[simp] theorem length_component (R : Fin n → Fin w → Ciphertext) (k : Fin w) (isData : Bool) :
    (component R k isData).length = n :=
  List.length_ofFn

/-- The bases of a unit are a batch of its component. -/
theorem bases_rowsOf (R : Fin n → Fin w → Ciphertext) (k : Fin w) (isData : Bool) (i : Nat) :
    ColumnUnit.bases { column := k, isData, batch := i } (rowsOf R) =
      batch (component R k isData) i := by
  have hcolumn : rowColumn (batch (rowsOf R) i) k = batch (List.ofFn fun j => R j k) i := by
    rw [rowsOf, List.ofFn_eq_map, List.ofFn_eq_map, batch_map, batch_map, rowColumn,
      List.filterMap_map, ← List.filterMap_eq_map]
    congr 1
    funext j
    exact getElem?_ofFn (R j) k
  rw [ColumnUnit.bases, hcolumn, ← batch_map, List.map_ofFn]
  rfl

/-! ## Putting results together -/

theorem chunks_append {xs : List α} (hn : 0 < n) (hlength : xs.length = n) (ys : List α) :
    chunks n (xs ++ ys) = xs :: chunks n ys := by
  have hne : ¬(n = 0 ∨ xs ++ ys = []) := by
    rintro (hzero | hnil)
    · exact Nat.ne_of_gt hn hzero
    · rw [(List.append_eq_nil_iff.mp hnil).1] at hlength
      exact Nat.ne_of_lt hn hlength
  rw [chunks, if_neg hne, ← hlength, List.take_left, List.drop_left]

/-- Consecutive results are cut into pieces of consecutive results. -/
theorem chunks_map_range {b : Nat} (hb : 0 < b) (count : Nat) (f : Nat → α) :
    chunks b ((List.range (count * b)).map f) =
      (List.range count).map fun c => (List.range b).map fun i => f (c * b + i) := by
  induction count generalizing f with
  | zero => rw [Nat.zero_mul, List.range_zero, List.map_nil, chunks, if_pos (.inr rfl), List.map_nil]
  | succ count ih =>
      have hsplit : (List.range ((count + 1) * b)).map f =
          (List.range b).map f ++ (List.range (count * b)).map fun k => f (b + k) := by
        rw [Nat.succ_mul, Nat.add_comm, List.range_add, List.map_append, List.map_map]
        rfl
      rw [hsplit, chunks_append hb (by simp), ih, List.range_succ_eq_map, List.map_cons,
        List.map_map]
      congr 1
      · simp
      · refine List.map_congr_left fun c _ => List.map_congr_left fun i _ => ?_
        rw [Nat.succ_mul, ← Nat.add_assoc, Nat.add_comm b]

/-- Consecutive results are paired up with their neighbours. -/
theorem pairs_map_range (count : Nat) (f : Nat → α) :
    pairs ((List.range (count * 2)).map f) =
      (List.range count).map fun k => (f (2 * k), f (2 * k + 1)) := by
  induction count generalizing f with
  | zero => rfl
  | succ count ih =>
      have hsplit : (List.range ((count + 1) * 2)).map f =
          f 0 :: f 1 :: (List.range (count * 2)).map fun k => f (k + 2) := by
        rw [Nat.succ_mul, List.range_succ_eq_map, List.range_succ_eq_map]
        simp [Function.comp_def]
      rw [hsplit, pairs, ih, List.range_succ_eq_map, List.map_cons, List.map_map]
      rfl

/-- The results of all units, put together by columns: to each component belong the
results of its batches. -/
theorem columns_of_units {b : Nat} (hb : 0 < b) (combine : List α → β) (result : Nat → α) :
    pairs ((chunks b ((List.range (w * 2 * b)).map result)).map combine) =
      (List.range w).map fun k =>
        (combine ((List.range b).map fun i => result (2 * k * b + i)),
          combine ((List.range b).map fun i => result ((2 * k + 1) * b + i))) := by
  rw [chunks_map_range hb, List.map_map, pairs_map_range]
  rfl

end VerifiableMix.Engine
