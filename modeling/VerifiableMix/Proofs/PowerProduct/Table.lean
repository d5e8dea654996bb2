import Mathlib.Algebra.BigOperators.Fin
import Mathlib.Data.Nat.Bitwise
import VerifiableMix.Proofs.PowerProduct.Windowed

/-!
# Two ways to fill a table

A table of subset products can be doubled base by base.  It can also be filled in
place: it starts out as a table of ones with each base at the place of its own bit,
and the masks are gone through in order.  An entry is the entry without the lowest
set bit of its mask times the entry at that bit.  This overwrites the bases it
started from, each by its residue.  What a step reads is a smaller mask, which has
its final value, or the very entry that the step is about to write.

## Main results

* `subsetProduct_eq_prod` — the factors of a subset product.
* `subsetProducts_getElem?` — the entries of a table, as numbers.
* `FilledBelow.step` — what one step of the fill in place preserves.
* `fillInPlace_eq` — both ways give the same table.
-/

namespace VerifiableMix.PowerProduct

variable {modulus : Nat}

/-! ## Subset products -/

/-- A subset product has one factor for every set bit of the mask. -/
theorem subsetProduct_eq_prod (bases : List Nat) (mask : Nat) :
    subsetProduct bases mask =
      ∏ i : Fin bases.length, if mask.testBit i then bases.get i else 1 := by
  induction bases generalizing mask with
  | nil => rfl
  | cons b rest ih =>
      have hfirst : b ^ (mask % 2) = if mask.testBit 0 then b else 1 := by
        rw [Nat.testBit_zero]
        rcases Nat.mod_two_eq_zero_or_one mask with h | h <;> simp [h]
      have hrest := Fin.prod_univ_succ fun i : Fin (rest.length + 1) =>
        if mask.testBit i then (b :: rest).get i else 1
      rw [subsetProduct, ih, hfirst]
      simp only [← Nat.testBit_add_one]
      exact hrest.symm

/-- A set bit may be split off. -/
theorem subsetProduct_split (bases : List Nat) {mask k : Nat} (hk : mask.testBit k = true) :
    subsetProduct bases mask =
      subsetProduct bases (mask ^^^ 2 ^ k) * subsetProduct bases (2 ^ k) := by
  rw [subsetProduct_eq_prod, subsetProduct_eq_prod, subsetProduct_eq_prod,
    ← Finset.prod_mul_distrib]
  refine Finset.prod_congr rfl fun i _ => ?_
  rw [Nat.testBit_xor, Nat.testBit_two_pow]
  by_cases h : k = i.val
  · subst h
    simp [hk]
  · simp [h]

/-- The mask of a single bit picks the base at its place. -/
theorem subsetProduct_two_pow (bases : List Nat) {k : Nat} (hk : k < bases.length) :
    subsetProduct bases (2 ^ k) = bases[k] := by
  rw [subsetProduct_eq_prod, Finset.prod_eq_single (⟨k, hk⟩ : Fin bases.length)]
  · simp
  · intro i _ hne
    have hplace : k ≠ i.val := fun h => hne (Fin.ext h.symm)
    simp [hplace]
  · simp

theorem subsetProduct_zero (bases : List Nat) : subsetProduct bases 0 = 1 := by
  rw [subsetProduct_eq_prod]
  simp

/-! ## Tables as numbers -/

theorem size_foldl_extendTable (bases : List Nat) (table : Array Nat) :
    (bases.foldl (extendTable modulus) table).size = table.size * 2 ^ bases.length := by
  induction bases generalizing table with
  | nil => simp
  | cons b rest ih =>
      rw [List.foldl_cons, ih, size_extendTable, List.length_cons, Nat.pow_succ]
      ring

/-- A table has an entry for every subset of its bases. -/
theorem size_subsetProducts (bases : List Nat) :
    (subsetProducts modulus bases).size = 2 ^ bases.length := by
  rw [subsetProducts, size_foldl_extendTable]
  simp

theorem foldl_extendTable_lt (hm : 0 < modulus) (bases : List Nat) {table : Array Nat}
    (htable : ∀ entry ∈ table, entry < modulus) :
    ∀ entry ∈ bases.foldl (extendTable modulus) table, entry < modulus := by
  induction bases generalizing table with
  | nil => exact htable
  | cons b rest ih =>
      refine ih fun entry hentry => ?_
      rcases Array.mem_append.mp hentry with h | h
      · exact htable entry h
      · obtain ⟨other, _, rfl⟩ := Array.mem_map.mp h
        exact Nat.mod_lt _ hm

/-- The entries of a table are reduced. -/
theorem lt_of_mem_subsetProducts (hm : 0 < modulus) {bases : List Nat} {entry : Nat}
    (h : entry ∈ subsetProducts modulus bases) : entry < modulus := by
  refine foldl_extendTable_lt hm bases (fun first hfirst => ?_) entry h
  obtain rfl : first = 1 % modulus := by simpa using hfirst
  exact Nat.mod_lt _ hm

/-- Entry `mask` of a table is the product of the bases at the set bits of
`mask`, reduced. -/
theorem subsetProducts_getElem? (hm : 0 < modulus) (bases : List Nat) {mask : Nat}
    (hmask : mask < 2 ^ bases.length) :
    (subsetProducts modulus bases)[mask]? = some (subsetProduct bases mask % modulus) := by
  have hinside : mask < (subsetProducts modulus bases).size := by
    rw [size_subsetProducts]
    exact hmask
  have hentry := subsetProducts_getD modulus bases hmask
  rw [Array.getD_eq_getD_getElem?, Array.getElem?_eq_getElem hinside, Option.getD_some,
    ZMod.natCast_eq_natCast_iff',
    Nat.mod_eq_of_lt (lt_of_mem_subsetProducts hm (Array.getElem_mem hinside))] at hentry
  rw [Array.getElem?_eq_getElem hinside, hentry]

/-! ## Filling a table in place -/

/-- The lowest set bit of a word, which the word has in common with its negative. -/
def lowestBit (mask : Nat) : Nat :=
  (BitVec.ofNat 64 mask &&& -BitVec.ofNat 64 mask).toNat

/-- Writes each base at the place of its own bit; the first base has the given
bit. -/
def writeSeeds (table : Array Nat) (place : Nat) : List Nat → Array Nat
  | [] => table
  | base :: rest => writeSeeds (table.setIfInBounds (2 ^ place) base) (place + 1) rest

/-- A table of ones, with each base at the place of its own bit. -/
def seeds (bases : List Nat) : Array Nat :=
  writeSeeds (Array.replicate (2 ^ bases.length) 1) 0 bases

/-- Fills one entry from the entries without and at its lowest set bit. -/
def fillEntry (modulus : Nat) (table : Array Nat) (mask : Nat) : Array Nat :=
  let bit := lowestBit mask
  table.setIfInBounds mask (table.getD (mask ^^^ bit) 1 * table.getD bit 1 % modulus)

/-- Fills a table in the order of the masks. -/
def fillInPlace (modulus : Nat) (bases : List Nat) : Array Nat :=
  (List.range (2 ^ bases.length)).foldl (fillEntry modulus) (seeds bases)

theorem testBit_lowestBit {mask : Nat} (hword : mask < 2 ^ 64) (i : Nat) :
    (lowestBit mask).testBit i = (mask.testBit i && !decide (∃ j < i, mask.testBit j = true)) := by
  have hbit : ∀ j, (BitVec.ofNat 64 mask).getLsbD j = mask.testBit j := by
    intro j
    rw [← BitVec.testBit_toNat, BitVec.toNat_ofNat, Nat.mod_eq_of_lt hword]
  rw [lowestBit, BitVec.testBit_toNat, BitVec.getLsbD_and, BitVec.getLsbD_neg]
  simp only [hbit]
  by_cases hi : i < 64
  · cases mask.testBit i <;> simp [hi]
  · have hpow : 2 ^ 64 ≤ 2 ^ i := Nat.pow_le_pow_right (by decide) (Nat.le_of_not_lt hi)
    have hzero : mask.testBit i = false := Nat.testBit_lt_two_pow (Nat.lt_of_lt_of_le hword hpow)
    simp [hzero]

@[simp] theorem lowestBit_zero : lowestBit 0 = 0 := rfl

/-- A mask without one of its bits comes before it. -/
theorem xor_two_pow_lt {mask k : Nat} (hk : mask.testBit k = true) : mask ^^^ 2 ^ k < mask := by
  refine Nat.lt_of_testBit k (by simp [hk]) hk fun j hj => ?_
  simp [Nat.ne_of_lt hj]

/-- The lowest set bit of a word that is not zero is one of its bits. -/
theorem exists_lowestBit {mask : Nat} (hne : mask ≠ 0) (hword : mask < 2 ^ 64) :
    ∃ k, mask.testBit k = true ∧ lowestBit mask = 2 ^ k := by
  have hset := Nat.exists_testBit_of_ne_zero hne
  refine ⟨Nat.find hset, Nat.find_spec hset, Nat.eq_of_testBit_eq fun i => ?_⟩
  rw [testBit_lowestBit hword, Nat.testBit_two_pow]
  rcases Nat.lt_trichotomy i (Nat.find hset) with hlt | heq | hgt
  · have hclear : mask.testBit i = false := by simpa using Nat.find_min hset hlt
    simp [hclear, Nat.ne_of_gt hlt]
  · have hnone : ¬∃ j < i, mask.testBit j = true := by
      rintro ⟨j, hj, hbit⟩
      exact Nat.find_min hset (heq ▸ hj) hbit
    have hbit : mask.testBit i = true := heq ▸ Nat.find_spec hset
    rw [hbit, decide_eq_false hnone, decide_eq_true heq.symm]
    rfl
  · have hsome : ∃ j < i, mask.testBit j = true := ⟨_, hgt, Nat.find_spec hset⟩
    simp [hsome, Nat.ne_of_lt hgt]

theorem size_writeSeeds (table : Array Nat) (place : Nat) (bases : List Nat) :
    (writeSeeds table place bases).size = table.size := by
  induction bases generalizing table place with
  | nil => rfl
  | cons b rest ih => rw [writeSeeds, ih, Array.size_setIfInBounds]

/-- Entries below the first bit are left as they are. -/
theorem getElem?_writeSeeds_of_lt (bases : List Nat) {table : Array Nat} {place i : Nat}
    (hi : i < 2 ^ place) : (writeSeeds table place bases)[i]? = table[i]? := by
  induction bases generalizing table place with
  | nil => rfl
  | cons b rest ih =>
      have hnext : i < 2 ^ (place + 1) :=
        Nat.lt_trans hi (Nat.pow_lt_pow_right (by decide) (Nat.lt_succ_self place))
      rw [writeSeeds, ih hnext, Array.getElem?_setIfInBounds_ne (Nat.ne_of_gt hi)]

/-- Every base stands at the place of its own bit. -/
theorem getElem?_writeSeeds {bases : List Nat} {table : Array Nat} {place k : Nat}
    (hk : k < bases.length) (hsize : 2 ^ (place + k) < table.size) :
    (writeSeeds table place bases)[2 ^ (place + k)]? = some bases[k] := by
  induction bases generalizing table place k with
  | nil => cases hk
  | cons b rest ih =>
      cases k with
      | zero =>
          have hnext : 2 ^ place < 2 ^ (place + 1) :=
            Nat.pow_lt_pow_right (by decide) (Nat.lt_succ_self place)
          rw [Nat.add_zero place] at hsize ⊢
          rw [writeSeeds, getElem?_writeSeeds_of_lt rest hnext,
            Array.getElem?_setIfInBounds_self_of_lt hsize, List.getElem_cons_zero]
      | succ k =>
          have hplace : place + (k + 1) = place + 1 + k := by omega
          rw [hplace] at hsize ⊢
          rw [writeSeeds, ih _ (by rwa [Array.size_setIfInBounds]), List.getElem_cons_succ]

theorem size_seeds (bases : List Nat) : (seeds bases).size = 2 ^ bases.length := by
  rw [seeds, size_writeSeeds, Array.size_replicate]

theorem getElem?_seeds_zero (bases : List Nat) : (seeds bases)[0]? = some 1 := by
  rw [seeds, getElem?_writeSeeds_of_lt bases (Nat.two_pow_pos 0)]
  simp

theorem getElem?_seeds_two_pow {bases : List Nat} {k : Nat} (hk : k < bases.length) :
    (seeds bases)[2 ^ k]? = some bases[k] := by
  have hinside : 2 ^ (0 + k) < (Array.replicate (2 ^ bases.length) 1).size := by
    rw [Nat.zero_add, Array.size_replicate]
    exact Nat.pow_lt_pow_right (by decide) hk
  have hseed := getElem?_writeSeeds hk hinside
  rwa [Nat.zero_add] at hseed

/-- The entries below `count` have their final values, the others are still seeds. -/
structure FilledBelow (modulus : Nat) (bases : List Nat) (count : Nat) (table : Array Nat) :
    Prop where
  size_eq : table.size = 2 ^ bases.length
  filled : ∀ mask < count, table[mask]? = some (subsetProduct bases mask % modulus)
  seeded : ∀ mask, count ≤ mask → table[mask]? = (seeds bases)[mask]?

/-- What is read at a single bit, filled or not, is the base at that bit. -/
theorem FilledBelow.getD_two_pow {bases : List Nat} {count k : Nat} {table : Array Nat}
    (h : FilledBelow modulus bases count table) (hk : k < bases.length) :
    table.getD (2 ^ k) 1 % modulus = subsetProduct bases (2 ^ k) % modulus := by
  rw [Array.getD_eq_getD_getElem?]
  by_cases hlt : 2 ^ k < count
  · rw [h.filled _ hlt, Option.getD_some, Nat.mod_mod]
  · rw [h.seeded _ (Nat.le_of_not_lt hlt), getElem?_seeds_two_pow hk, Option.getD_some,
      subsetProduct_two_pow bases hk]

/-- The next entry is computed from entries that stand where it reads them. -/
theorem FilledBelow.entry_eq {bases : List Nat} {mask : Nat} {table : Array Nat}
    (h : FilledBelow modulus bases mask table) (hbases : bases.length ≤ 64)
    (hmask : mask < 2 ^ bases.length) :
    table.getD (mask ^^^ lowestBit mask) 1 * table.getD (lowestBit mask) 1 % modulus =
      subsetProduct bases mask % modulus := by
  rcases Nat.eq_zero_or_pos mask with rfl | hpos
  · -- The empty mask has no lowest bit: both reads are of the entry to be written.
    have hone : table.getD 0 1 = 1 := by
      rw [Array.getD_eq_getD_getElem?, h.seeded 0 (Nat.le_refl 0), getElem?_seeds_zero,
        Option.getD_some]
    rw [lowestBit_zero, Nat.xor_zero, hone, subsetProduct_zero]
  · have hword : mask < 2 ^ 64 :=
      Nat.lt_of_lt_of_le hmask (Nat.pow_le_pow_right (by decide) hbases)
    obtain ⟨k, hbit, hlowest⟩ := exists_lowestBit (Nat.ne_of_gt hpos) hword
    have hk : k < bases.length := (Nat.pow_lt_pow_iff_right (by decide)).mp
      (Nat.lt_of_le_of_lt (Nat.ge_two_pow_of_testBit hbit) hmask)
    have hwithout : table.getD (mask ^^^ 2 ^ k) 1 =
        subsetProduct bases (mask ^^^ 2 ^ k) % modulus := by
      rw [Array.getD_eq_getD_getElem?, h.filled _ (xor_two_pow_lt hbit), Option.getD_some]
    rw [hlowest, hwithout, Nat.mod_mul_mod, Nat.mul_mod, h.getD_two_pow hk, ← Nat.mul_mod,
      ← subsetProduct_split bases hbit]

/-- One step fills one more entry. -/
theorem FilledBelow.step {bases : List Nat} {mask : Nat} {table : Array Nat}
    (h : FilledBelow modulus bases mask table) (hbases : bases.length ≤ 64)
    (hmask : mask < 2 ^ bases.length) :
    FilledBelow modulus bases (mask + 1) (fillEntry modulus table mask) where
  size_eq := by rw [fillEntry, Array.size_setIfInBounds, h.size_eq]
  filled other hother := by
    rw [fillEntry, h.entry_eq hbases hmask]
    rcases Nat.lt_succ_iff_lt_or_eq.mp hother with hlt | rfl
    · rw [Array.getElem?_setIfInBounds_ne (Nat.ne_of_gt hlt), h.filled other hlt]
    · rw [Array.getElem?_setIfInBounds_self_of_lt (by rwa [h.size_eq])]
  seeded other hother := by
    rw [fillEntry, Array.getElem?_setIfInBounds_ne (Nat.ne_of_lt hother),
      h.seeded other (Nat.le_of_succ_le hother)]

/-- After the first masks their entries are filled. -/
theorem filledBelow_range (modulus : Nat) {bases : List Nat} (hbases : bases.length ≤ 64)
    {count : Nat} (hcount : count ≤ 2 ^ bases.length) :
    FilledBelow modulus bases count
      ((List.range count).foldl (fillEntry modulus) (seeds bases)) := by
  induction count with
  | zero =>
      exact {
        size_eq := size_seeds bases
        filled := fun mask hmask => absurd hmask (Nat.not_lt_zero mask)
        seeded := fun _ _ => rfl }
  | succ count ih =>
      rw [List.range_succ, List.foldl_append]
      exact (ih (Nat.le_of_succ_le hcount)).step hbases hcount

/-- Both ways to fill a table give the same table. -/
theorem fillInPlace_eq (hm : 0 < modulus) {bases : List Nat} (hbases : bases.length ≤ 64) :
    fillInPlace modulus bases = subsetProducts modulus bases := by
  have hfilled := filledBelow_range modulus hbases (Nat.le_refl _)
  refine Array.ext_getElem? fun mask => ?_
  by_cases hmask : mask < 2 ^ bases.length
  · rw [fillInPlace, hfilled.filled mask hmask, subsetProducts_getElem? hm bases hmask]
  · rw [fillInPlace, Array.getElem?_eq_none, Array.getElem?_eq_none]
    · rw [size_subsetProducts]
      exact Nat.le_of_not_lt hmask
    · rw [hfilled.size_eq]
      exact Nat.le_of_not_lt hmask

end VerifiableMix.PowerProduct
