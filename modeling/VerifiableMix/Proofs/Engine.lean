import VerifiableMix.Proofs.Engine.Units
import VerifiableMix.Proofs.Engine.Workers
import VerifiableMix.Proofs.Group.Residue
import VerifiableMix.Proofs.PowerProduct.Windowed

/-!
# The engine computes linear combinations

The engine cuts its input into batches, hands each to its backend and multiplies
the results.  Scalars have at most 256 bits, so no batch is refused, and the
result is the product of powers whatever the backend and the batches.  Over
members a product of powers is a linear combination.

## Main results

* `powerProduct_eq_value` — vectors of one length give the product of powers.
* `powerProduct_elements` — over members that is `∑ kᵢ • xᵢ`.
* `columnPower_rowsOf`, `columnPower_rowSet` — the same for all columns of a row set.
* `plainColumnPower_rowsOf`, `plainColumnPower_rowSet` — one power at a time gives the
  same row.
-/

namespace VerifiableMix

open VerifiableMix.Group Failure

variable {G : Group} {n w : Nat}

namespace Group

/-- An element is determined by the residue class of its value. -/
theorem element_mod_eq {value : Nat} {x : Member G} (h : (value : ZMod G.p) = x.residue) :
    G.element (value % G.p) = x.element := by
  have hx : (value : ZMod G.p) ^ Scalar.order = 1 := by rw [h, x.residue_pow_order]
  have hsame : Member.ofResidue value hx = x :=
    Member.residue_injective (by rw [Member.residue_ofResidue, h])
  rw [← hsame]
  rfl

/-- The class of a product of powers. -/
theorem cast_value (x : Fin n → Element) (k : Fin n → Scalar) :
    ((PowerProduct.value (List.ofFn fun i => (x i).value) (List.ofFn fun i => (k i).val) : Nat) :
      ZMod G.p) = ∏ i, ((x i).value : ZMod G.p) ^ (k i).val := by
  rw [PowerProduct.value, zipWith_ofFn, List.prod_ofFn, Nat.cast_prod]
  simp only [Nat.cast_pow]

/-- The value of a product of powers of members is a linear combination. -/
theorem element_value (x : Fin n → Member G) (k : Fin n → Scalar) :
    G.element (PowerProduct.value (List.ofFn fun i => (x i).element.value)
      (List.ofFn fun i => (k i).val) % G.p) = (∑ i, k i • x i).element := by
  apply element_mod_eq
  rw [cast_value (fun i => (x i).element), Member.residue_sum]
  simp only [Member.residue_smul]
  rfl

/-- A linear combination of rows, column by column. -/
theorem combination_apply (R : Fin n → Fin w → Cipher G) (k : Fin n → Scalar) (col : Fin w) :
    (∑ i, k i • R i) col = (∑ i, k i • (R i col).1, ∑ i, k i • (R i col).2) := by
  rw [Finset.sum_apply]
  apply Prod.ext
  · rw [Prod.fst_sum]
    rfl
  · rw [Prod.snd_sum]
    rfl

end Group

namespace Engine

/-! ## Batches -/

/-- The exponents of the engine fit the windowed scan. -/
theorem scalar_lt (k : Scalar) : k.val < 2 ^ PowerProduct.exponentBits :=
  Nat.lt_trans k.isLt (by decide)

theorem forall_lt_of_scalars (exps : ScalarVector) :
    ∀ e ∈ exps.map Scalar.val, e < 2 ^ PowerProduct.exponentBits := by
  intro e he
  obtain ⟨k, _, rfl⟩ := List.mem_map.mp he
  exact scalar_lt k

/-- Every batch gives the value of its piece. -/
theorem powerProduct_batch (engine : Engine) (G : Group) {bases exps : List Nat}
    (hlength : bases.length = exps.length) (hexps : ∀ e ∈ exps, e < 2 ^ PowerProduct.exponentBits)
    (k : Nat) :
    engine.backend.powerProduct (batch bases k) (batch exps k) G.p =
      .ok (PowerProduct.value (batch bases k) (batch exps k) % G.p) :=
  PowerProduct.powerProduct_eq engine.backend (Nat.lt_trans Nat.zero_lt_one G.one_lt_p)
    (length_batch_congr hlength k) (length_batch_le bases k)
    fun e he => hexps e (mem_of_mem_batch he)

/-- The results of batches multiply, reduced or not. -/
theorem reduce_map_mod (G : Group) (values : List Nat) :
    reduce G (values.map (· % G.p)) = G.element (values.prod % G.p) := by
  have hvalues :
      ((values.map (· % G.p)).map G.element).map Element.value = values.map (· % G.p) := by
    rw [List.map_map]
    exact List.map_id _
  rw [reduce, prod_eq, hvalues, ← List.prod_nat_mod]

/-- The batches multiply to the value of the whole. -/
theorem reduce_batches (G : Group) {bases exps : List Nat} (hlength : bases.length = exps.length) :
    reduce G ((List.range (batchCount bases.length)).map fun k =>
      PowerProduct.value (batch bases k) (batch exps k) % G.p) =
      G.element (PowerProduct.value bases exps % G.p) := by
  rw [← prod_batches hlength, ← reduce_map_mod, List.map_map]
  rfl

/-! ## Vectors -/

/-- Vectors of one length give the product of powers. -/
theorem powerProduct_eq_value (engine : Engine) (G : Group) {bases : ElementVector}
    {exps : ScalarVector} (hlength : bases.length = exps.length) :
    engine.powerProduct G bases exps =
      .ok (G.element (PowerProduct.value bases.values (exps.map Scalar.val) % G.p)) := by
  have hvalues : bases.values.length = (exps.map Scalar.val).length := by
    simp [ElementVector.values, hlength]
  have hunits := engine.runEach_eq_ok fun k
      (_ : k ∈ List.range (batchCount bases.values.length)) =>
    powerProduct_batch engine G hvalues (forall_lt_of_scalars exps) k
  rw [powerProduct, hlength, checkLength_self, ok_bind]
  dsimp only [runUnits]
  rw [hunits, ok_bind, reduce_batches G hvalues]
  rfl

theorem powerProduct_ofFn (engine : Engine) (x : Fin n → Element) (k : Fin n → Scalar) :
    engine.powerProduct G (List.ofFn x) (List.ofFn k) =
      .ok (G.element (PowerProduct.value (List.ofFn fun i => (x i).value)
        (List.ofFn fun i => (k i).val) % G.p)) := by
  rw [powerProduct_eq_value engine G (by simp), ElementVector.values, List.map_ofFn, List.map_ofFn]
  rfl

/-- Over members the product of powers is a linear combination. -/
theorem powerProduct_elements (engine : Engine) (x : Fin n → Member G) (k : Fin n → Scalar) :
    engine.powerProduct G (elements x) (List.ofFn k) = .ok (∑ i, k i • x i).element := by
  rw [elements, powerProduct_ofFn, element_value]

/-! ## Columns -/

/-- What the backend makes of a unit. -/
def unitValue (G : Group) (rows : List Row) (exps : List Nat) (unit : ColumnUnit) : Nat :=
  PowerProduct.value (unit.bases rows) (batch exps unit.batch) % G.p

theorem powerProduct_unit (engine : Engine) (G : Group) (R : Fin n → Fin w → Ciphertext)
    {exps : List Nat} (hlength : exps.length = n)
    (hexps : ∀ e ∈ exps, e < 2 ^ PowerProduct.exponentBits) {unit : ColumnUnit}
    (hcolumn : unit.column < w) :
    engine.backend.powerProduct (unit.bases (rowsOf R)) (batch exps unit.batch) G.p =
      .ok (unitValue G (rowsOf R) exps unit) := by
  have hbases := bases_rowsOf R ⟨unit.column, hcolumn⟩ unit.isData unit.batch
  rw [unitValue, hbases]
  exact powerProduct_batch engine G (by simp [hlength]) hexps unit.batch

/-- The units of a component multiply to its product of powers. -/
theorem reduce_units (G : Group) (R : Fin n → Fin w → Ciphertext) {exps : List Nat}
    (hlength : exps.length = n) (k : Fin w) (isData : Bool) {c : Nat} (hcolumn : c / 2 = k)
    (hcomponent : decide (c % 2 = 1) = isData) :
    reduce G ((List.range (batchCount n)).map fun i =>
      unitValue G (rowsOf R) exps (ColumnUnit.ofNumber (batchCount n) (c * batchCount n + i))) =
      G.element (PowerProduct.value (component R k isData) exps % G.p) := by
  have hpaired : (component R k isData).length = exps.length := by
    rw [length_component, hlength]
  have hbatches := reduce_batches G hpaired
  rw [length_component] at hbatches
  rw [← hbatches]
  congr 1
  refine List.map_congr_left fun i hi => ?_
  rw [ColumnUnit.ofNumber_add (List.mem_range.mp hi), hcolumn, hcomponent, unitValue,
    bases_rowsOf]

/-- Every column is a product of powers in each component, whatever the entries
are. -/
theorem columnPower_rowsOf (engine : Engine) (G : Group) (hw : 0 < w)
    (R : Fin (n + 1) → Fin w → Ciphertext) (k : Fin (n + 1) → Scalar) :
    engine.columnPower G (rowsOf R) (List.ofFn k) =
      .ok (List.ofFn fun col =>
        { pad := G.element (PowerProduct.value (List.ofFn fun i => (R i col).pad.value)
            (List.ofFn fun i => (k i).val) % G.p)
          data := G.element (PowerProduct.value (List.ofFn fun i => (R i col).data.value)
            (List.ofFn fun i => (k i).val) % G.p) }) := by
  have hexps : (List.ofFn k).map Scalar.val = List.ofFn fun i => (k i).val := List.map_ofFn
  have hsmall := forall_lt_of_scalars (List.ofFn k)
  rw [hexps] at hsmall
  have hbatches : 0 < batchCount (n + 1) := batchCount_pos (Nat.succ_pos n)
  have hunits := engine.runEach_eq_ok fun number
      (hnumber : number ∈ List.range (w * 2 * batchCount (n + 1))) =>
    powerProduct_unit engine G R List.length_ofFn hsmall
      (ColumnUnit.column_ofNumber_lt hbatches (List.mem_range.mp hnumber))
  rw [columnPower, rowWidth_rowsOf hw, length_rowsOf, List.length_ofFn]
  simp only [ok_bind, checkLength_self, hexps]
  dsimp only [runUnits]
  rw [hunits, ok_bind, columns_of_units hbatches (reduce G), List.map_map, map_range_eq_ofFn]
  show Except.ok _ = Except.ok _
  congr 2
  funext col
  have hpad := reduce_units G R (List.length_ofFn (f := fun i => (k i).val)) col false
    (c := 2 * col) (by omega) (by simp)
  have hdata := reduce_units G R (List.length_ofFn (f := fun i => (k i).val)) col true
    (c := 2 * col + 1) (by omega) (by simp)
  exact congrArg₂ Ciphertext.mk hpad hdata

/-- Over a row set of members every column is a linear combination of rows. -/
theorem columnPower_rowSet (engine : Engine) (hw : 0 < w) (R : Fin (n + 1) → Fin w → Cipher G)
    (k : Fin (n + 1) → Scalar) :
    engine.columnPower G (rowSet R) (List.ofFn k) = .ok (row (∑ i, k i • R i)) := by
  rw [rowSet_eq, columnPower_rowsOf engine G hw, row]
  congr 2
  funext col
  have hpad := element_value (fun i => (R i col).1) k
  have hdata := element_value (fun i => (R i col).2) k
  rw [combination_apply, cipher, ← hpad, ← hdata]
  rfl

end Engine

/-! ## One power at a time -/

/-- Multiplying in one power after the other gives the product of powers in each
component. -/
theorem foldl_powers (x : Fin n → Ciphertext) (k : Fin n → Scalar) (pad data : Nat) :
    ((List.ofFn x).zip (List.ofFn k)).foldl
      (fun acc (x, e) => Ciphertext.mul G acc (x.pow G e))
      { pad := G.element (pad % G.p), data := G.element (data % G.p) } =
      { pad := G.element (pad * PowerProduct.value (List.ofFn fun i => (x i).pad.value)
          (List.ofFn fun i => (k i).val) % G.p)
        data := G.element (data * PowerProduct.value (List.ofFn fun i => (x i).data.value)
          (List.ofFn fun i => (k i).val) % G.p) } := by
  induction n generalizing pad data with
  | zero => simp
  | succ n ih =>
      have hmul : ∀ (acc : Nat) (y : Element), G.mul (G.element (acc % G.p)) (G.pow y (k 0)) =
          G.element (acc * y.value ^ (k 0).val % G.p) := by
        intro acc y
        show G.element (acc % G.p * (G.pow y (k 0)).value % G.p) = _
        rw [val_pow, ← Nat.mul_mod]
      simp only [List.ofFn_succ, List.zip_cons_cons, List.foldl_cons, PowerProduct.value_cons]
      rw [Ciphertext.mul, Ciphertext.pow, hmul, hmul, ih, Nat.mul_assoc, Nat.mul_assoc]

/-- One power at a time gives the same row, whatever the entries are. -/
theorem plainColumnPower_rowsOf (engine : Engine) (G : Group) (hw : 0 < w)
    (R : Fin (n + 1) → Fin w → Ciphertext) (k : Fin (n + 1) → Scalar) :
    plainColumnPower G (rowsOf R) (List.ofFn k) =
      engine.columnPower G (rowsOf R) (List.ofFn k) := by
  rw [engine.columnPower_rowsOf G hw, plainColumnPower, rowWidth_rowsOf hw, length_rowsOf,
    List.length_ofFn]
  simp only [ok_bind, checkLength_self]
  show Except.ok _ = Except.ok _
  rw [map_range_eq_ofFn]
  congr 2
  funext col
  have hone : Ciphertext.one G =
      { pad := G.element (1 % G.p), data := G.element (1 % G.p) } := by
    rw [Nat.mod_eq_of_lt G.one_lt_p]
    rfl
  rw [rowColumn_rowsOf, hone, foldl_powers, Nat.one_mul, Nat.one_mul]

/-- Over a row set of members one power at a time gives the linear combinations. -/
theorem plainColumnPower_rowSet (hw : 0 < w) (R : Fin (n + 1) → Fin w → Cipher G)
    (k : Fin (n + 1) → Scalar) :
    plainColumnPower G (rowSet R) (List.ofFn k) = .ok (row (∑ i, k i • R i)) := by
  let engine : Engine := ⟨1, .standard, 0⟩
  rw [rowSet_eq, plainColumnPower_rowsOf engine G hw, ← rowSet_eq, engine.columnPower_rowSet hw]

end VerifiableMix
