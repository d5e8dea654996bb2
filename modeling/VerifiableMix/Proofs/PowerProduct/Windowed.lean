import Mathlib.Tactic.Ring
import VerifiableMix.Proofs.Failure
import VerifiableMix.Proofs.PowerProduct.Value

/-!
# The windowed scan computes the product of powers

All steps of the scan are products modulo `m`, so they are followed in
`ZMod m`.  An entry of a table is a product of bases, one for each set bit of
its mask.  After the bits above a place have been scanned, the accumulator is
the product of the powers to the exponents' leading bits: a step squares it and
multiplies in the bases whose exponents have the next bit.

## Main results

* `subsetProducts_getD` — entry `mask` of a table is the product of the bases at
  the set bits of `mask`.
* `windowedScan_eq` — the scan of `bits` bits gives the value for the exponents
  modulo `2 ^ bits`, for every width of the windows.
* `powerProduct_eq` — both backends give the value on every batch that fits.
-/

namespace VerifiableMix.PowerProduct

open Failure

variable {modulus : Nat}

/-! ## Tables -/

/-- The product of the bases at the set bits of a mask. -/
def subsetProduct : List Nat → Nat → Nat
  | [], _ => 1
  | b :: rest, mask => b ^ (mask % 2) * subsetProduct rest (mask / 2)

/-- A table that grows by a base holds every entry without and with it. -/
theorem extendTable_getD (table : Array Nat) (base : Nat) {i bit : Nat} (hi : i < table.size)
    (hbit : bit < 2) :
    (((extendTable modulus table base).getD (i + table.size * bit) 1 : Nat) : ZMod modulus) =
      (table.getD i 1 : Nat) * (base : ZMod modulus) ^ bit := by
  have hentry : table[i]? = some table[i] := Array.getElem?_eq_getElem hi
  rcases Nat.lt_succ_iff_lt_or_eq.mp hbit with hzero | rfl
  · have : bit = 0 := by omega
    subst this
    simp [extendTable, Array.getD_eq_getD_getElem?, Array.getElem?_append, hi]
  · have hnext : ¬ i + table.size < table.size := by omega
    simp [extendTable, Array.getD_eq_getD_getElem?, Array.getElem?_append, hnext, hentry]

theorem size_extendTable (table : Array Nat) (base : Nat) :
    (extendTable modulus table base).size = 2 * table.size := by
  simp only [extendTable, Array.size_append, Array.size_map]
  omega

variable (modulus) in
/-- Growing a table by several bases spreads each entry over their masks. -/
theorem foldl_extendTable_getD (bases : List Nat) (table : Array Nat) {i mask : Nat}
    (hi : i < table.size) (hmask : mask < 2 ^ bases.length) :
    (((bases.foldl (extendTable modulus) table).getD (i + table.size * mask) 1 : Nat) :
        ZMod modulus) = (table.getD i 1 : Nat) * (subsetProduct bases mask : Nat) := by
  induction bases generalizing table i mask with
  | nil =>
      have : mask = 0 := by simpa using hmask
      subst this
      simp [subsetProduct]
  | cons b rest ih =>
      have hbit : mask % 2 < 2 := Nat.mod_lt _ (by decide)
      have hhalf : mask / 2 < 2 ^ rest.length := by
        rw [List.length_cons, Nat.pow_succ] at hmask
        omega
      have hinside : i + table.size * (mask % 2) < (extendTable modulus table b).size := by
        have := Nat.mul_le_mul_left table.size (Nat.lt_succ_iff.mp hbit)
        rw [size_extendTable]
        omega
      have hplace : i + table.size * mask =
          i + table.size * (mask % 2) + (extendTable modulus table b).size * (mask / 2) := by
        rw [size_extendTable]
        conv_lhs => rw [← Nat.mod_add_div mask 2]
        ring
      rw [List.foldl_cons, hplace, ih _ hinside hhalf, extendTable_getD table b hi hbit,
        subsetProduct, Nat.cast_mul, Nat.cast_pow, mul_assoc]

variable (modulus) in
/-- Entry `mask` of a table is the product of the bases at the set bits of
`mask`. -/
theorem subsetProducts_getD (bases : List Nat) {mask : Nat} (hmask : mask < 2 ^ bases.length) :
    (((subsetProducts modulus bases).getD mask 1 : Nat) : ZMod modulus) =
      (subsetProduct bases mask : Nat) := by
  have hfirst : 0 < (#[1 % modulus] : Array Nat).size := Nat.one_pos
  have h := foldl_extendTable_getD modulus bases #[1 % modulus] hfirst hmask
  simpa [subsetProducts] using h

/-- The mask of a place stays below the power of two for the number of
exponents. -/
theorem maskAt_lt (place : Nat) (exps : List Nat) : maskAt place exps < 2 ^ exps.length := by
  induction exps with
  | nil => simp [maskAt]
  | cons e rest ih =>
      rw [maskAt, List.length_cons, Nat.pow_succ]
      split <;> omega

/-- The mask of a place picks the bases whose exponents have a bit there. -/
theorem subsetProduct_maskAt (place : Nat) (bases exps : List Nat)
    (h : bases.length = exps.length) :
    subsetProduct bases (maskAt place exps) =
      value bases (exps.map fun e => (e.testBit place).toNat) := by
  induction bases generalizing exps with
  | nil => simp [subsetProduct]
  | cons b rest ih =>
      cases exps with
      | nil => simp at h
      | cons e exps =>
          have hrest := ih exps (by simpa using h)
          have hlow : maskAt place (e :: exps) % 2 = (e.testBit place).toNat := by
            rw [maskAt]
            cases e.testBit place <;> simp
          have hhigh : maskAt place (e :: exps) / 2 = maskAt place exps := by
            rw [maskAt]
            split <;> omega
          rw [subsetProduct, hlow, hhigh, hrest, List.map_cons, value_cons]

/-! ## The scan -/

/-- The windows of a batch: for every piece its table and its exponents. -/
def windows (modulus : Nat) (pieces : List (List Nat × List Nat)) :
    List (Array Nat × List Nat) :=
  pieces.map fun piece => (subsetProducts modulus piece.1, piece.2)

/-- One place multiplies in the bases whose exponents have a bit there. -/
theorem multiplyIn_eq (place : Nat) (acc : Nat) (pieces : List (List Nat × List Nat))
    (h : ∀ piece ∈ pieces, piece.1.length = piece.2.length) :
    ((multiplyIn modulus place acc (windows modulus pieces) : Nat) : ZMod modulus) =
      acc * ((pieces.map fun piece =>
        value piece.1 (piece.2.map fun e => (e.testBit place).toNat)).prod : Nat) := by
  induction pieces generalizing acc with
  | nil => simp [multiplyIn, windows]
  | cons piece rest ih =>
      have hlength := h piece (by simp)
      have hmask : maskAt place piece.2 < 2 ^ piece.1.length := by
        rw [hlength]
        exact maskAt_lt place piece.2
      have hrest := ih (acc * (subsetProducts modulus piece.1).getD (maskAt place piece.2) 1 %
        modulus) fun other hother => h other (by simp [hother])
      have hentry := subsetProducts_getD modulus piece.1 hmask
      rw [subsetProduct_maskAt place piece.1 piece.2 hlength] at hentry
      show ((multiplyIn modulus place _ (windows modulus rest) : Nat) : ZMod modulus) = _
      rw [hrest, ZMod.natCast_mod, Nat.cast_mul, hentry, List.map_cons, List.prod_cons,
        Nat.cast_mul, mul_assoc]

theorem multiplyIn_lt (hm : 0 < modulus) (place : Nat) {acc : Nat} (hacc : acc < modulus)
    (pieces : List (Array Nat × List Nat)) : multiplyIn modulus place acc pieces < modulus := by
  induction pieces generalizing acc with
  | nil => exact hacc
  | cons window rest ih => exact ih (Nat.mod_lt _ hm)

/-- The accumulator stays reduced. -/
theorem scan_lt (hm : 0 < modulus) (pieces : List (Array Nat × List Nat)) (bits : Nat) {acc : Nat}
    (hacc : acc < modulus) : scan modulus pieces bits acc < modulus := by
  induction bits generalizing acc with
  | zero => exact hacc
  | succ place ih => exact ih (multiplyIn_lt hm place (Nat.mod_lt _ hm) pieces)

variable (modulus) in
/-- Scanning the low `bits` bits raises the accumulator to `2 ^ bits` and
multiplies in the powers to those bits. -/
theorem scan_eq {bases exps : List Nat} {width : Nat} (hwidth : 0 < width)
    (hlength : bases.length = exps.length) (bits acc : Nat) :
    ((scan modulus (windows modulus ((chunks width bases).zip (chunks width exps))) bits acc :
        Nat) : ZMod modulus) =
      (acc : ZMod modulus) ^ 2 ^ bits * (value bases (exps.map (· % 2 ^ bits)) : Nat) := by
  induction bits generalizing acc with
  | zero =>
      have hzero : exps.map (· % 2 ^ 0) = exps.map fun _ => 0 :=
        List.map_congr_left fun e _ => Nat.mod_one e
      rw [hzero, value_map_zero]
      simp [scan]
  | succ place ih =>
      have hpieces : ∀ piece ∈ (chunks width bases).zip (chunks width exps),
          piece.1.length = piece.2.length :=
        fun piece hpiece => (length_of_mem_zip_chunks hlength hpiece).1
      have hsplit : (exps.map (· % 2 ^ (place + 1))) =
          exps.map fun e => (e.testBit place).toNat * 2 ^ place + e % 2 ^ place := by
        refine List.map_congr_left fun e _ => ?_
        rw [Nat.pow_succ, Nat.mod_mul, Nat.toNat_testBit, Nat.mul_comm, Nat.add_comm]
      rw [scan, ih, multiplyIn_eq place _ _ hpieces, prod_chunks hwidth _ hlength, hsplit,
        value_map_mul_add]
      push_cast
      rw [ZMod.natCast_mod, Nat.pow_succ]
      push_cast
      ring

/-- The scan of `bits` bits gives the value for the exponents modulo
`2 ^ bits`, for every width of the windows. -/
theorem windowedScan_eq {bases exps : List Nat} {width : Nat} (hwidth : 0 < width)
    (hm : 0 < modulus) (hlength : bases.length = exps.length) (bits : Nat) :
    windowedScan width modulus bits bases exps =
      value bases (exps.map (· % 2 ^ bits)) % modulus := by
  have hone : 1 % modulus < modulus := Nat.mod_lt _ hm
  have hwindows : (tables width modulus bases).zip (chunks width exps) =
      windows modulus ((chunks width bases).zip (chunks width exps)) := by
    rw [tables, windows, List.zip_map_left]
    rfl
  have hscan := scan_eq modulus hwidth hlength bits (1 % modulus)
  rw [ZMod.natCast_mod, Nat.cast_one, one_pow, one_mul, ZMod.natCast_eq_natCast_iff'] at hscan
  rw [windowedScan, hwindows, ← hscan, Nat.mod_eq_of_lt (scan_lt hm _ bits hone)]

/-! ## Backends -/

/-- Exponents of 256 bits are read in full. -/
theorem windowed_eq {bases exps : List Nat} (hm : 0 < modulus)
    (hlength : bases.length = exps.length) (hbatch : bases.length ≤ maxBatch)
    (hexps : ∀ e ∈ exps, e < 2 ^ exponentBits) :
    windowed bases exps modulus = .ok (value bases exps % modulus) := by
  have hwide : (exps.any fun e => exponentBits < Bytes.bitLength e) = false := by
    rw [List.any_eq_false]
    intro e he
    have := Bytes.bitLength_le_iff.mpr (hexps e he)
    simpa using this
  have hlow : exps.map (· % 2 ^ exponentBits) = exps :=
    (List.map_congr_left fun e he => Nat.mod_eq_of_lt (hexps e he)).trans (List.map_id' exps)
  have hwidth : 0 < windowWidth := by decide
  have hscan := windowedScan_eq hwidth hm hlength exponentBits
  rw [hlow] at hscan
  unfold windowed
  rw [hlength, checkLength_self, checkModulus, if_neg (Nat.ne_of_gt hm), ← hlength,
    if_neg (Nat.not_lt.mpr hbatch), hwide, hscan]
  rfl

theorem direct_eq {bases exps : List Nat} (hm : 0 < modulus)
    (hlength : bases.length = exps.length) :
    direct bases exps modulus = .ok (value bases exps % modulus) := by
  simp [direct, checkModulus, hlength, Nat.ne_of_gt hm, directFold_eq]

/-- Both backends give the value on every batch that fits. -/
theorem powerProduct_eq (backend : Backend) {bases exps : List Nat} (hm : 0 < modulus)
    (hlength : bases.length = exps.length) (hbatch : bases.length ≤ maxBatch)
    (hexps : ∀ e ∈ exps, e < 2 ^ exponentBits) :
    backend.powerProduct bases exps modulus = .ok (value bases exps % modulus) := by
  cases backend with
  | direct => exact direct_eq hm hlength
  | windowed => exact windowed_eq hm hlength hbatch hexps

end VerifiableMix.PowerProduct
