import VerifiableMix.Bytes.Lemmas
import VerifiableMix.Proofs.PowerProduct.Batched

/-!
# Products of powers over byte strings

An accelerator is handed byte strings of fixed widths.  The widths are checked before a
backend is asked, and they leave nothing that a backend could refuse: an exponent of 32
bytes has no more than 256 bits, and lists of any length are taken batch by batch.  What
comes back is below the modulus, so it fits the width of the modulus and is filled up to
it, also when it is zero or when the modulus itself begins with zero bytes.

## Main results

* `checkContract_eq_ok_iff` — what may be handed over.
* `ofBytes_eq` — past the checks every backend gives the product of powers.
* `byteContract_exact` — when there is an answer, and what it is.
-/

namespace VerifiableMix.PowerProduct

open Failure

variable {bases exps : List Bytes} {modulus : Bytes}

/-- What may be handed over: a modulus with a byte that is not zero, bases as wide as the
modulus, and as many exponents of 32 bytes. -/
structure MeetsContract (bases exps : List Bytes) (modulus : Bytes) : Prop where
  paired : bases.length = exps.length
  modulus_ne_nil : modulus ≠ []
  modulus_ne_zero : Bytes.toNatBE modulus ≠ 0
  length_base : ∀ b ∈ bases, b.length = modulus.length
  length_exponent : ∀ e ∈ exps, e.length = 32

/-- The checks that are made before a backend is asked. -/
def checkContract (bases exps : List Bytes) (modulus : Bytes) : Except Error Unit := do
  checkLength .bytePower bases.length exps.length
  if modulus.isEmpty then throw (.emptyInput .modulus)
  checkWidths modulus.length bases
  checkWidths exponentBytes exps
  checkModulus (Bytes.toNatBE modulus)

theorem checkWidths_eq_ok_iff {width : Nat} {strings : List Bytes} {u : Unit} :
    checkWidths width strings = .ok u ↔ ∀ bytes ∈ strings, bytes.length = width := by
  rw [checkWidths, forM_eq_ok_iff]
  refine forall₂_congr fun bytes _ => ?_
  by_cases hwidth : bytes.length = width <;> simp [hwidth]

theorem checkModulus_eq_ok_iff {m : Nat} {u : Unit} : checkModulus m = .ok u ↔ m ≠ 0 := by
  by_cases hm : m = 0 <;> simp [checkModulus, hm]

/-- The checks let through what may be handed over. -/
theorem checkContract_eq_ok_iff {u : Unit} :
    checkContract bases exps modulus = .ok u ↔ MeetsContract bases exps modulus := by
  unfold checkContract
  by_cases hnil : modulus = []
  · subst hnil
    constructor
    · intro h
      obtain ⟨_, _, hrefused⟩ := bind_eq_ok_iff.mp h
      cases hrefused
    · intro h
      exact absurd rfl h.modulus_ne_nil
  · have hempty : modulus.isEmpty = false := by simpa using hnil
    simp only [hempty, Bool.false_eq_true, if_false, bind_eq_ok_iff, checkLength_eq_ok_iff,
      checkWidths_eq_ok_iff, checkModulus_eq_ok_iff]
    constructor
    · rintro ⟨_, hpaired, _, hbases, _, hexps, hzero⟩
      exact ⟨hpaired, hnil, hzero, hbases, hexps⟩
    · intro h
      exact ⟨(), h.paired, (), h.length_base, (), h.length_exponent, h.modulus_ne_zero⟩

/-! ## What comes back -/

/-- After its checks the product is that of numbers, written at the width of the modulus. -/
theorem ofBytes_eq_batched (backend : Backend) (bases exps : List Bytes) (modulus : Bytes) :
    ofBytes backend bases exps modulus =
      checkContract bases exps modulus >>= fun _ =>
        batched backend (bases.map Bytes.toNatBE) (exps.map Bytes.toNatBE)
          (Bytes.toNatBE modulus) >>= fun result => .ok (Bytes.padded modulus.length result) := by
  unfold ofBytes checkContract
  cases modulus.isEmpty <;> simp only [Bool.false_eq_true, if_false, if_true, bind_assoc] <;> rfl

namespace MeetsContract

/-- An exponent of 32 bytes is not too wide for any backend. -/
theorem exponent_lt (h : MeetsContract bases exps modulus) :
    ∀ e ∈ exps.map Bytes.toNatBE, e < 2 ^ exponentBits := by
  intro e he
  obtain ⟨bytes, hbytes, rfl⟩ := List.mem_map.mp he
  have hlt := Bytes.toNatBE_lt bytes
  rw [h.length_exponent bytes hbytes] at hlt
  exact hlt

theorem batched_eq (h : MeetsContract bases exps modulus) (backend : Backend) :
    batched backend (bases.map Bytes.toNatBE) (exps.map Bytes.toNatBE) (Bytes.toNatBE modulus) =
      .ok (value (bases.map Bytes.toNatBE) (exps.map Bytes.toNatBE) % Bytes.toNatBE modulus) :=
  batched_eq_value backend (Nat.pos_of_ne_zero h.modulus_ne_zero)
    (by rw [List.length_map, List.length_map, h.paired]) h.exponent_lt

/-- A residue fits the width of the modulus. -/
theorem mod_lt (h : MeetsContract bases exps modulus) (n : Nat) :
    n % Bytes.toNatBE modulus < 256 ^ modulus.length :=
  Nat.lt_trans (Nat.mod_lt n (Nat.pos_of_ne_zero h.modulus_ne_zero)) (Bytes.toNatBE_lt modulus)

end MeetsContract

/-- Past the checks every backend gives the product of powers, as wide as the modulus. -/
theorem ofBytes_eq (backend : Backend) (bases exps : List Bytes) (modulus : Bytes) :
    ofBytes backend bases exps modulus =
      checkContract bases exps modulus >>= fun _ =>
        .ok (Bytes.ofNatBE modulus.length
          (value (bases.map Bytes.toNatBE) (exps.map Bytes.toNatBE) % Bytes.toNatBE modulus)) := by
  rw [ofBytes_eq_batched]
  cases hcheck : checkContract bases exps modulus with
  | error error => rfl
  | ok u =>
      have hcontract := checkContract_eq_ok_iff.mp hcheck
      have hwidth : 0 < modulus.length := List.length_pos_iff.mpr hcontract.modulus_ne_nil
      rw [ok_bind, ok_bind, hcontract.batched_eq, ok_bind,
        Bytes.padded_eq_ofNatBE hwidth (hcontract.mod_lt _)]

/-- The backends give the same answer, or refuse for the same reason, whatever they are
handed.  There is an answer exactly when the contract is met; it is as wide as the
modulus, and its value is the product of powers. -/
theorem byteContract_exact (bases exps : List Bytes) (modulus : Bytes) :
    ofBytes .windowed bases exps modulus = ofBytes .direct bases exps modulus ∧
    ∀ backend,
      ((∃ out, ofBytes backend bases exps modulus = .ok out) ↔
        MeetsContract bases exps modulus) ∧
      ∀ out, ofBytes backend bases exps modulus = .ok out →
        out.length = modulus.length ∧
        Bytes.toNatBE out =
          value (bases.map Bytes.toNatBE) (exps.map Bytes.toNatBE) % Bytes.toNatBE modulus := by
  refine ⟨by rw [ofBytes_eq, ofBytes_eq], fun backend => ⟨?_, fun out hout => ?_⟩⟩
  · rw [ofBytes_eq, ← checkContract_eq_ok_iff (u := ())]
    cases checkContract bases exps modulus <;> simp
  · rw [ofBytes_eq] at hout
    obtain ⟨_, hcheck, hresult⟩ := bind_eq_ok_iff.mp hout
    have hcontract := checkContract_eq_ok_iff.mp hcheck
    obtain rfl := Except.ok.inj hresult
    refine ⟨Bytes.length_ofNatBE _ _, ?_⟩
    rw [Bytes.toNatBE_ofNatBE, Nat.mod_eq_of_lt (hcontract.mod_lt _)]

/-- A modulus may begin with zero bytes and divide the product, here of more bases than one
batch holds; a modulus of zero bytes alone is refused. -/
theorem byteContract_exact_zeros :
    (∃ out, ofBytes .windowed (List.replicate 85 [0, 0, 6])
        (List.replicate 85 (List.replicate 31 0 ++ [1])) [0, 0, 12] = .ok out ∧
      out.length = 3 ∧ Bytes.toNatBE out = 0) ∧
    ¬ ∃ out, ofBytes .direct [] [] [0, 0, 0] = .ok out := by
  have hexact := (byteContract_exact (List.replicate 85 [0, 0, 6])
    (List.replicate 85 (List.replicate 31 0 ++ [1])) [0, 0, 12]).2 .windowed
  have hmeets : MeetsContract (List.replicate 85 [0, 0, 6])
      (List.replicate 85 (List.replicate 31 0 ++ [1])) [0, 0, 12] :=
    ⟨by simp, by simp, by decide, by simp, by simp⟩
  have hzero : value ((List.replicate 85 [0, 0, 6]).map Bytes.toNatBE)
      ((List.replicate 85 (List.replicate 31 0 ++ [1])).map Bytes.toNatBE) %
        Bytes.toNatBE [0, 0, 12] = 0 := by decide +kernel
  constructor
  · obtain ⟨out, hout⟩ := hexact.1.mpr hmeets
    obtain ⟨hlength, hvalue⟩ := hexact.2 out hout
    exact ⟨out, hout, hlength, hvalue.trans hzero⟩
  · intro h
    exact (((byteContract_exact [] [] [0, 0, 0]).2 .direct).1.mp h).modulus_ne_zero rfl

end VerifiableMix.PowerProduct
