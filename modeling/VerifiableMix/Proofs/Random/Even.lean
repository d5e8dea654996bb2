import Mathlib.Algebra.Order.Floor.Div
import Mathlib.Probability.Distributions.Uniform
import VerifiableMix.Proofs.Random.Sampler

/-!
# Numbers below a bound are drawn evenly

A word is scaled to a number below a bound, and is kept when its low half lies in
the zone of acceptance.  The zone is a multiple of the bound, so for each number the
products that stand for it fill a window that holds the same number of multiples of
the bound.  Words that are equally likely hence give numbers that are equally likely.

## Main results

* `card_words` — every number is given by the same number of words.
* `DrawsEvenly.apply` — even draws from below a bound.
* `drawsEvenly_scaled` — scaled words are even draws.
-/

namespace VerifiableMix.Sampler

/-! ## Words for a number -/

variable {bound word value : Nat}

/-- The number of words that stand for each number below a bound. -/
def wordsPerNumber (bound : Nat) : Nat :=
  2 ^ (63 - bound.log2)

theorem bound_mul_wordsPerNumber_le (hpos : 0 < bound) (hbound : bound ≤ UInt64.size) :
    bound * wordsPerNumber bound ≤ UInt64.size := by
  rcases hbound.eq_or_lt with rfl | hlt
  · decide
  · have hlog : bound.log2 < 64 := (Nat.log2_lt hpos.ne').mpr hlt
    have hbits : bound < 2 ^ (bound.log2 + 1) := Nat.lt_log2_self
    calc bound * wordsPerNumber bound
        ≤ 2 ^ (bound.log2 + 1) * 2 ^ (63 - bound.log2) := Nat.mul_le_mul_right _ hbits.le
      _ = UInt64.size := by
          rw [← Nat.pow_add, show bound.log2 + 1 + (63 - bound.log2) = 64 by omega]

/-- A word stands for a number when its product lies in the window of the number. -/
theorem scaleWord?_eq_some_iff (hpos : 0 < bound) (hbound : bound ≤ UInt64.size) :
    scaleWord? bound word = some value ↔
      value * UInt64.size ≤ word * bound ∧
        word * bound < value * UInt64.size + bound * wordsPerNumber bound := by
  have hwindow := bound_mul_wordsPerNumber_le hpos hbound
  have hwide : 0 < bound * wordsPerNumber bound :=
    Nat.mul_pos hpos (Nat.two_pow_pos _)
  have hzone : acceptanceZone bound = bound * wordsPerNumber bound - 1 := by
    rw [acceptanceZone, Nat.shiftLeft_eq, wordsPerNumber]
  rw [scaleWord?, hzone]
  generalize bound * wordsPerNumber bound = window at hwindow hwide ⊢
  generalize word * bound = product
  simp only [UInt64.size] at hwindow ⊢
  by_cases haccepted : product % 18446744073709551616 ≤ window - 1
  · simp only [haccepted, if_true, Option.some.injEq]
    omega
  · simp only [haccepted, if_false, reduceCtorEq, false_iff]
    omega

/-- The words that stand for a number. -/
def wordsOf (bound value : Nat) : Finset Nat :=
  (Finset.range UInt64.size).filter fun word => scaleWord? bound word = some value

/-- Every number below the bound is given by the same number of words. -/
theorem card_words (hbound : bound ≤ UInt64.size) (hvalue : value < bound) :
    (wordsOf bound value).card = wordsPerNumber bound := by
  have hpos : 0 < bound := by omega
  have hwindow := bound_mul_wordsPerNumber_le hpos hbound
  let first := value * UInt64.size ⌈/⌉ bound
  have hfirst : ∀ w, first ≤ w ↔ value * UInt64.size ≤ w * bound := by
    intro w
    rw [Nat.mul_comm w]
    exact ceilDiv_le_iff_le_mul hpos
  have hlast : ∀ w, w < first + wordsPerNumber bound ↔
      w * bound < value * UInt64.size + bound * wordsPerNumber bound := by
    intro w
    rw [← Nat.not_le, ← Nat.not_le, not_iff_not]
    by_cases hlow : wordsPerNumber bound ≤ w
    · obtain ⟨beyond, rfl⟩ := Nat.exists_eq_add_of_le' hlow
      rw [Nat.add_le_add_iff_right, hfirst, Nat.add_mul, Nat.mul_comm bound,
        Nat.add_le_add_iff_right]
    · have hproduct : w * bound < wordsPerNumber bound * bound :=
        Nat.mul_lt_mul_of_pos_right (Nat.lt_of_not_le hlow) hpos
      rw [Nat.mul_comm bound]
      omega
  have hbelow : ∀ w, w * bound < value * UInt64.size + bound * wordsPerNumber bound →
      w < UInt64.size := by
    intro w hw
    apply Nat.lt_of_mul_lt_mul_right (a := bound)
    calc w * bound < value * UInt64.size + bound * wordsPerNumber bound := hw
      _ ≤ value * UInt64.size + UInt64.size := Nat.add_le_add_left hwindow _
      _ = (value + 1) * UInt64.size := (Nat.succ_mul _ _).symm
      _ ≤ bound * UInt64.size := Nat.mul_le_mul_right _ hvalue
      _ = UInt64.size * bound := Nat.mul_comm _ _
  have hinterval : wordsOf bound value = Finset.Ico first (first + wordsPerNumber bound) := by
    ext w
    rw [wordsOf, Finset.mem_filter, Finset.mem_range, Finset.mem_Ico,
      scaleWord?_eq_some_iff hpos hbound, hfirst, hlast]
    exact ⟨And.right, fun h => ⟨hbelow w h.2, h⟩⟩
  rw [hinterval, Nat.card_Ico, Nat.add_sub_cancel_left]

/-! ## Even draws -/

/-- Below every positive bound up to a limit each number is drawn equally often, and
no other number is drawn. -/
structure DrawsEvenly (limit : Nat) (below : Nat → PMF Nat) : Prop where
  lt : ∀ {bound value}, 0 < bound → bound ≤ limit → value ∈ (below bound).support → value < bound
  even : ∀ {bound value value'}, bound ≤ limit → value < bound → value' < bound →
    below bound value = below bound value'

variable {limit : Nat} {below : Nat → PMF Nat}

theorem DrawsEvenly.mono (h : DrawsEvenly limit below) {limit' : Nat} (hlimit : limit' ≤ limit) :
    DrawsEvenly limit' below where
  lt hpos hbound := h.lt hpos (hbound.trans hlimit)
  even hbound := h.even (hbound.trans hlimit)

/-- Each number has its equal share. -/
theorem DrawsEvenly.apply (h : DrawsEvenly limit below) (hbound : bound ≤ limit)
    (hvalue : value < bound) : below bound value = (bound : ENNReal)⁻¹ := by
  have houtside : ∀ v ∉ Finset.range bound, below bound v = 0 := by
    intro v hv
    by_contra hne
    have hlt := h.lt (by omega) hbound ((PMF.mem_support_iff _ _).mpr hne)
    exact hv (Finset.mem_range.mpr hlt)
  have hsum : (bound : ENNReal) * below bound value = 1 := by
    calc (bound : ENNReal) * below bound value
        = ∑ _v ∈ Finset.range bound, below bound value := by simp
      _ = ∑ v ∈ Finset.range bound, below bound v :=
          Finset.sum_congr rfl fun v hv => h.even hbound hvalue (Finset.mem_range.mp hv)
      _ = tsum (below bound) := (tsum_eq_sum houtside).symm
      _ = 1 := (below bound).tsum_coe
  rw [mul_comm] at hsum
  exact ENNReal.eq_inv_of_mul_eq_one_left hsum

/-! ## Scaled words -/

/-- The words that stand for any number. -/
def acceptedWords (bound : Nat) : Finset Nat :=
  (Finset.range UInt64.size).filter fun word => (scaleWord? bound word).isSome

/-- The number that an accepted word stands for, all of these words being equally
likely; zero if none is accepted. -/
noncomputable def scaled (bound : Nat) : PMF Nat :=
  if h : (acceptedWords bound).Nonempty then
    (PMF.uniformOfFinset (acceptedWords bound) h).map fun word => (scaleWord? bound word).getD 0
  else PMF.pure 0

theorem acceptedWords_nonempty (hpos : 0 < bound) (hbound : bound ≤ UInt64.size) :
    (acceptedWords bound).Nonempty := by
  have hsome : (wordsOf bound 0).Nonempty := by
    rw [← Finset.card_pos, card_words hbound hpos]
    exact Nat.two_pow_pos _
  obtain ⟨word, hword⟩ := hsome
  obtain ⟨hrange, hvalue⟩ := Finset.mem_filter.mp hword
  exact ⟨word, Finset.mem_filter.mpr ⟨hrange, by rw [hvalue]; rfl⟩⟩

theorem scaled_apply (hbound : bound ≤ UInt64.size) (hvalue : value < bound) :
    scaled bound value =
      wordsPerNumber bound * ((acceptedWords bound).card : ENNReal)⁻¹ := by
  have hnonempty := acceptedWords_nonempty (by omega) hbound
  have hwords : (acceptedWords bound).filter (fun word => value = (scaleWord? bound word).getD 0) =
      wordsOf bound value := by
    ext word
    rw [acceptedWords, wordsOf, Finset.filter_filter, Finset.mem_filter, Finset.mem_filter]
    refine and_congr_right fun _ => ?_
    cases scaleWord? bound word <;> simp [eq_comm]
  have houtside : ∀ word ∉ acceptedWords bound,
      (if value = (scaleWord? bound word).getD 0 then
        PMF.uniformOfFinset (acceptedWords bound) hnonempty word else 0) = 0 := by
    intro word hword
    rw [PMF.uniformOfFinset_apply_of_notMem hnonempty hword, ite_self]
  calc scaled bound value
      = tsum fun word => if value = (scaleWord? bound word).getD 0 then
        PMF.uniformOfFinset (acceptedWords bound) hnonempty word else 0 := by
          rw [scaled, dif_pos hnonempty, PMF.map_apply]
          congr!
    _ = ∑ word ∈ acceptedWords bound, (if value = (scaleWord? bound word).getD 0 then
        PMF.uniformOfFinset (acceptedWords bound) hnonempty word else 0) := tsum_eq_sum houtside
    _ = ∑ word ∈ acceptedWords bound, (if value = (scaleWord? bound word).getD 0 then
        ((acceptedWords bound).card : ENNReal)⁻¹ else 0) := by
          refine Finset.sum_congr rfl fun word hword => ?_
          rw [PMF.uniformOfFinset_apply_of_mem hnonempty hword]
    _ = wordsPerNumber bound * ((acceptedWords bound).card : ENNReal)⁻¹ := by
          rw [← Finset.sum_filter, hwords, Finset.sum_const, card_words hbound hvalue, nsmul_eq_mul]

/-- Words that are equally likely give numbers that are equally likely. -/
theorem drawsEvenly_scaled : DrawsEvenly UInt64.size scaled where
  lt := by
    intro bound value hpos hbound hdrawn
    rw [scaled, dif_pos (acceptedWords_nonempty hpos hbound), PMF.mem_support_map_iff] at hdrawn
    obtain ⟨word, hword, rfl⟩ := hdrawn
    rw [PMF.mem_support_uniformOfFinset_iff] at hword
    obtain ⟨hrange, haccepted⟩ := Finset.mem_filter.mp hword
    obtain ⟨value, hvalue⟩ := Option.isSome_iff_exists.mp haccepted
    rw [hvalue]
    exact lt_of_scaleWord? hpos (Finset.mem_range.mp hrange) hvalue
  even := by
    intro bound value value' hbound hvalue hvalue'
    rw [scaled_apply hbound hvalue, scaled_apply hbound hvalue']

end VerifiableMix.Sampler
