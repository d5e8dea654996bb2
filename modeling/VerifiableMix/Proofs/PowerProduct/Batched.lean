import VerifiableMix.Proofs.PowerProduct.Windowed

/-!
# Products of powers of any length

Lists of any length are taken batch by batch.  A batch is always short enough
for the windowed scan, so all that this backend can refuse is an exponent that
is too wide, and it refuses it in whichever batch it stands.  As long as no
exponent is too wide, both backends multiply the values of the same batches.

## Main results

* `batched_eq_value` — both backends give the product of powers.
* `batched_windowed_eq` — what the windowed backend answers, with any exponents.
* `batched_windowed_refines_direct` — the windowed backend measured against the
  reference, on every input.
-/

namespace VerifiableMix.PowerProduct

open Failure

variable {modulus : Nat}

/-! ## One batch -/

/-- An exponent of more than 256 bits is refused by the windowed scan. -/
theorem windowed_of_wide {bases exps : List Nat} (hm : 0 < modulus)
    (hlength : bases.length = exps.length) (hbatch : bases.length ≤ maxBatch)
    (hwide : ∃ e ∈ exps, 2 ^ exponentBits ≤ e) :
    windowed bases exps modulus = .error .scalarOutOfRange := by
  obtain ⟨e, he, hle⟩ := hwide
  have hany : (exps.any fun e => exponentBits < Bytes.bitLength e) = true := by
    refine List.any_eq_true.mpr ⟨e, he, ?_⟩
    have hlong := mt Bytes.bitLength_le_iff.mp (Nat.not_lt.mpr hle)
    simpa using hlong
  unfold windowed
  rw [hlength, checkLength_self, checkModulus, if_neg (Nat.ne_of_gt hm), ← hlength,
    if_neg (Nat.not_lt.mpr hbatch), hany]
  rfl

theorem exists_wide_of_not_forall_lt {exps : List Nat}
    (h : ¬∀ e ∈ exps, e < 2 ^ exponentBits) : ∃ e ∈ exps, 2 ^ exponentBits ≤ e := by
  simpa only [not_forall, Nat.not_lt, exists_prop] using h

/-- A batch that fits gives its value or is refused for a wide exponent. -/
theorem windowed_error_eq {bases exps : List Nat} (hm : 0 < modulus)
    (hlength : bases.length = exps.length) (hbatch : bases.length ≤ maxBatch) {error : Error}
    (h : windowed bases exps modulus = .error error) : error = .scalarOutOfRange := by
  by_cases hexps : ∀ e ∈ exps, e < 2 ^ exponentBits
  · rw [windowed_eq hm hlength hbatch hexps] at h
    cases h
  · rw [windowed_of_wide hm hlength hbatch (exists_wide_of_not_forall_lt hexps)] at h
    exact (Except.error.inj h).symm

/-! ## All batches -/

theorem batched_of_length_ne (backend : Backend) {bases exps : List Nat}
    (hlength : bases.length ≠ exps.length) :
    batched backend bases exps modulus =
      .error (.lengthMismatch .batchedPower bases.length exps.length) := by
  rw [batched, checkLength_of_ne hlength]
  rfl

theorem batched_zero_modulus (backend : Backend) {bases exps : List Nat}
    (hlength : bases.length = exps.length) :
    batched backend bases exps 0 = .error .invalidModulus := by
  rw [batched, hlength, checkLength_self]
  rfl

/-- Past its guards the product is a fold over the batches. -/
theorem batched_eq_foldlM (backend : Backend) {bases exps : List Nat} (hm : 0 < modulus)
    (hlength : bases.length = exps.length) :
    batched backend bases exps modulus =
      ((chunks maxBatch bases).zip (chunks maxBatch exps)).foldlM
        (fun acc piece => backend.powerProduct piece.1 piece.2 modulus >>= fun result =>
          .ok (acc * result % modulus)) (1 % modulus) := by
  rw [batched, hlength, checkLength_self, checkModulus, if_neg (Nat.ne_of_gt hm)]
  rfl

/-- Both backends give the product of powers, for lists of any length. -/
theorem batched_eq_value (backend : Backend) {bases exps : List Nat} (hm : 0 < modulus)
    (hlength : bases.length = exps.length) (hexps : ∀ e ∈ exps, e < 2 ^ exponentBits) :
    batched backend bases exps modulus = .ok (value bases exps % modulus) := by
  let pieces := (chunks maxBatch bases).zip (chunks maxBatch exps)
  have hstep : ∀ piece ∈ pieces, ∀ acc,
      (backend.powerProduct piece.1 piece.2 modulus >>= fun result =>
        .ok (acc * result % modulus)) =
        (.ok (acc * (value piece.1 piece.2 % modulus) % modulus) : Except Error Nat) := by
    intro piece hpiece acc
    obtain ⟨hpair, hbatch⟩ := length_of_mem_zip_chunks hlength hpiece
    have hsmall : ∀ e ∈ piece.2, e < 2 ^ exponentBits := fun e he =>
      hexps e (mem_of_mem_zip_chunks (by decide) hpiece he)
    rw [powerProduct_eq backend hm hpair hbatch hsmall, ok_bind]
  have hprod := prod_chunks (n := maxBatch) (by decide) id hlength
  simp only [List.map_id] at hprod
  have hfold := foldl_mul_mod modulus (pieces.map fun piece => value piece.1 piece.2) 1
  rw [List.foldl_map, Nat.one_mul, hprod] at hfold
  rw [batched_eq_foldlM backend hm hlength, foldlM_eq_ok _ hstep, hfold]

/-- The windowed backend refuses a wide exponent, in whichever batch it is. -/
theorem batched_windowed_of_wide {bases exps : List Nat} (hm : 0 < modulus)
    (hlength : bases.length = exps.length) (hwide : ∃ e ∈ exps, 2 ^ exponentBits ≤ e) :
    batched .windowed bases exps modulus = .error .scalarOutOfRange := by
  rw [batched_eq_foldlM .windowed hm hlength]
  refine foldlM_eq_error _ (fun piece hpiece acc error h => ?_) ?_
  · obtain ⟨hpair, hbatch⟩ := length_of_mem_zip_chunks hlength hpiece
    change (windowed piece.1 piece.2 modulus >>= _) = _ at h
    cases hresult : windowed piece.1 piece.2 modulus with
    | error other =>
        rw [hresult, error_bind] at h
        have hother := windowed_error_eq hm hpair hbatch hresult
        rw [← Except.error.inj h, hother]
    | ok result => simp [hresult] at h
  · obtain ⟨e, he, hle⟩ := hwide
    obtain ⟨piece, hpiece, he⟩ := exists_mem_zip_chunks (n := maxBatch) (by decide) hlength he
    obtain ⟨hpair, hbatch⟩ := length_of_mem_zip_chunks hlength hpiece
    refine ⟨piece, hpiece, fun acc => ?_⟩
    show (windowed piece.1 piece.2 modulus >>= _) = _
    rw [windowed_of_wide hm hpair hbatch ⟨e, he, hle⟩, error_bind]

/-- What the windowed backend answers, for lists of any length. -/
theorem batched_windowed_eq {bases exps : List Nat} (hm : 0 < modulus)
    (hlength : bases.length = exps.length) :
    batched .windowed bases exps modulus =
      if ∀ e ∈ exps, e < 2 ^ exponentBits then .ok (value bases exps % modulus)
      else .error .scalarOutOfRange := by
  by_cases hexps : ∀ e ∈ exps, e < 2 ^ exponentBits
  · rw [if_pos hexps, batched_eq_value .windowed hm hlength hexps]
  · rw [if_neg hexps, batched_windowed_of_wide hm hlength (exists_wide_of_not_forall_lt hexps)]

/-! ## The two backends -/

/-- The windowed backend against the reference.  On lists of one length and a
modulus that is not zero they differ in one point only, an exponent of more than
256 bits; anything else is refused before a backend is asked. -/
theorem batched_windowed_refines_direct (bases exps : List Nat) (modulus : Nat) :
    (bases.length = exps.length → 0 < modulus →
      ((∀ e ∈ exps, e < 2 ^ 256) →
        batched .windowed bases exps modulus = .ok (value bases exps % modulus) ∧
        batched .direct bases exps modulus = .ok (value bases exps % modulus) ∧
        direct bases exps modulus = .ok (value bases exps % modulus) ∧
        (bases.length ≤ 84 → windowed bases exps modulus = .ok (value bases exps % modulus))) ∧
      (∀ size max, batched .windowed bases exps modulus ≠ .error (.batchTooLarge size max)) ∧
      (batched .windowed bases exps modulus = .error .scalarOutOfRange ↔
        ∃ e ∈ exps, 2 ^ 256 ≤ e)) ∧
    (bases.length ≠ exps.length → ∀ backend, batched backend bases exps modulus =
      .error (.lengthMismatch .batchedPower bases.length exps.length)) ∧
    (bases.length = exps.length → modulus = 0 → ∀ backend,
      batched backend bases exps modulus = .error .invalidModulus) := by
  refine ⟨fun hlength hm => ⟨fun hexps => ?_, fun size max h => ?_, ?_⟩,
    fun hlength backend => batched_of_length_ne backend hlength, ?_⟩
  · exact ⟨batched_eq_value .windowed hm hlength hexps, batched_eq_value .direct hm hlength hexps,
      direct_eq hm hlength, fun hbatch => windowed_eq hm hlength hbatch hexps⟩
  · rw [batched_windowed_eq hm hlength] at h
    by_cases hexps : ∀ e ∈ exps, e < 2 ^ exponentBits
    · rw [if_pos hexps] at h
      cases h
    · rw [if_neg hexps] at h
      cases h
  · rw [batched_windowed_eq hm hlength]
    by_cases hexps : ∀ e ∈ exps, e < 2 ^ exponentBits
    · rw [if_pos hexps]
      refine iff_of_false (fun h => by cases h) ?_
      rintro ⟨e, he, hle⟩
      exact Nat.not_lt.mpr hle (hexps e he)
    · rw [if_neg hexps]
      exact iff_of_true rfl (exists_wide_of_not_forall_lt hexps)
  · rintro hlength rfl backend
    exact batched_zero_modulus backend hlength

/-- Ninety unreduced bases take two batches, and the last of ninety exponents is
seen to be too wide. -/
theorem batched_windowed_refines_direct_ninety :
    batched .windowed (List.replicate 90 13) (List.replicate 90 2) 10 = .ok 1 ∧
    batched .windowed (List.replicate 90 0) (List.replicate 89 0 ++ [2 ^ 256]) 1 =
      .error .scalarOutOfRange ∧
    windowed [13, 0, 7] [2, 0, 3] 10 = .ok 7 ∧
    batched .windowed [] [1] 0 = .error (.lengthMismatch .batchedPower 0 1) ∧
    batched .direct [2] [3] 0 = .error .invalidModulus := by
  have hninety := (batched_windowed_refines_direct (List.replicate 90 13)
    (List.replicate 90 2) 10).1 (by decide) (by decide)
  have hwide := (batched_windowed_refines_direct (List.replicate 90 0)
    (List.replicate 89 0 ++ [2 ^ 256]) 1).1 (by decide) (by decide)
  have hthree := (batched_windowed_refines_direct [13, 0, 7] [2, 0, 3] 10).1 (by decide) (by decide)
  have hsmall : ∀ e ∈ List.replicate 90 2, e < 2 ^ 256 := by simp
  have hvalue : value (List.replicate 90 13) (List.replicate 90 2) % 10 = 1 := by decide +kernel
  refine ⟨?_, hwide.2.2.mpr ⟨2 ^ 256, by simp, Nat.le_refl _⟩, ?_, ?_, ?_⟩
  · rw [(hninety.1 hsmall).1, hvalue]
  · rw [(hthree.1 (by decide)).2.2.2 (by decide)]
    rfl
  · exact (batched_windowed_refines_direct [] [1] 0).2.1 (by decide) .windowed
  · exact (batched_windowed_refines_direct [2] [3] 0).2.2 rfl rfl .direct

end VerifiableMix.PowerProduct
