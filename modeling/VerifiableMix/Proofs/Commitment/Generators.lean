import Mathlib.FieldTheory.Finite.Basic
import Mathlib.RingTheory.RootsOfUnity.PrimitiveRoots
import VerifiableMix.Commitment.Generators
import VerifiableMix.Proofs.Group.Member
import VerifiableMix.Proofs.Scalar.Prime

/-!
# Derived generators are members

A candidate for a generator is a power `r` of a residue, and the search keeps
one that is neither 0 nor 1.  When the modulus is prime the power `q` of such a
candidate is a power `p - 1` of a unit, so every generator that the derivation
returns is a member.  As the order is prime too, there are no more members than
powers of `g`.

## Main results

* `exists_generatorsOf_of_deriveAll` — what the derivation returns is a family of
  members.
* `ne_zero_of_deriveAll` — none of them is the identity.
* `exists_smul_generator` — over a prime modulus every member is a power of `g`.
-/

namespace VerifiableMix

open VerifiableMix.Group Failure

variable {G : Group} {n : Nat}

/-- The generators of a mix as families. -/
def Group.generatorsOf (h0 : Member G) (x : Fin n → Member G) : Generators :=
  { h0 := h0.element, rows := elements x }

namespace Generators

/-- The search returns a candidate that is neither 0 nor 1. -/
theorem exists_of_firstProper {candidate : Nat → Nat} {count attempt h : Nat}
    (hfound : firstProper candidate count attempt = some h) :
    ∃ i, candidate i = h ∧ h ≠ 0 ∧ h ≠ 1 := by
  induction count generalizing attempt with
  | zero => simp [firstProper] at hfound
  | succ count ih =>
      rw [firstProper] at hfound
      by_cases hproper : candidate attempt ≠ 0 ∧ candidate attempt ≠ 1
      · have hh : candidate attempt = h := by simpa [hproper] using hfound
        exact ⟨attempt, hh, hh ▸ hproper⟩
      · rw [if_neg hproper] at hfound
        exact ih hfound

/-- A power `r` of a unit has the order of the subgroup. -/
theorem isMember_pow_cofactor (hp : G.p.Prime) {x : Nat} (hx : x ^ G.r % G.p ≠ 0) :
    G.IsMember (G.element (x ^ G.r % G.p)) := by
  have : Fact G.p.Prime := ⟨hp⟩
  have hunit : (x : ZMod G.p) ≠ 0 := by
    intro hzero
    have hdvd : G.p ∣ x := (ZMod.natCast_eq_zero_iff x G.p).mp hzero
    have hr : G.r ≠ 0 := by
      intro hr
      have h1 := G.p_eq
      have h2 := G.one_lt_p
      rw [hr] at h1
      omega
    exact hx (Nat.mod_eq_zero_of_dvd (dvd_pow hdvd hr))
  have hfermat : ((x ^ G.r) ^ Scalar.order : ZMod G.p) = 1 := by
    have horder : G.r * Scalar.order = G.p - 1 := by
      have h := G.p_eq
      rw [Nat.mul_comm]
      omega
    rw [← pow_mul, horder]
    exact ZMod.pow_card_sub_one_eq_one hunit
  have horder : ((x ^ G.r : Nat) : ZMod G.p) ^ Scalar.order = 1 := by rw [Nat.cast_pow, hfermat]
  exact (Member.ofResidue (x ^ G.r) horder).isMember

/-- What is derived is one of the candidates. -/
theorem exists_of_derive {O : Oracle} {mixName : String} {seed : Option Bytes} {index : Nat}
    {x : Element} (h : derive O G mixName seed index = .ok x) :
    ∃ attempt, x = G.element (candidate O G mixName (seed.getD []) index attempt) ∧
      x.value ≠ 0 ∧ x.value ≠ 1 := by
  rw [derive] at h
  cases hfound : firstProper (candidate O G mixName (seed.getD []) index) attemptLimit 0 with
  | none => simp [hfound] at h
  | some value =>
      obtain rfl : G.element value = x := by simpa [hfound] using h
      obtain ⟨attempt, rfl, hproper⟩ := exists_of_firstProper hfound
      exact ⟨attempt, rfl, hproper⟩

theorem isMember_of_derive (hp : G.p.Prime) {O : Oracle} {mixName : String}
    {seed : Option Bytes} {index : Nat} {x : Element}
    (h : derive O G mixName seed index = .ok x) : G.IsMember x := by
  obtain ⟨attempt, rfl, hne, _⟩ := exists_of_derive h
  rw [candidate, powMod_eq] at hne ⊢
  exact isMember_pow_cofactor hp hne

/-- The derivation returns one generator per row. -/
theorem length_of_deriveAll {O : Oracle} {mixName : String} {seed : Option Bytes}
    {gens : Generators} (h : deriveAll O G mixName seed n = .ok gens) : gens.rows.length = n := by
  obtain ⟨h0, _, hrest⟩ := bind_eq_ok_iff.mp h
  obtain ⟨rows, hrows, hgens⟩ := bind_eq_ok_iff.mp hrest
  obtain rfl := Except.ok.inj hgens
  rw [← (forall₂_of_mapM_eq_ok hrows).length_eq, List.length_range]

/-- The derivation succeeds for two rows over the 512-bit group. -/
theorem exists_deriveAll_test :
    ∃ gens, deriveAll Oracle.standard Group.test "mix" none 2 = .ok gens := by
  have hok : (deriveAll Oracle.standard Group.test "mix" none 2).isOk = true := by decide +kernel
  cases h : deriveAll Oracle.standard Group.test "mix" none 2 with
  | ok gens => exact ⟨gens, rfl⟩
  | error error =>
      rw [h] at hok
      cases hok

/-- What holds of every generator that is derived holds of all of them. -/
theorem forall_of_deriveAll {P : Element → Prop} {O : Oracle} {mixName : String}
    {seed : Option Bytes} {gens : Generators}
    (hP : ∀ index x, derive O G mixName seed index = .ok x → P x)
    (h : deriveAll O G mixName seed n = .ok gens) : P gens.h0 ∧ ∀ x ∈ gens.rows, P x := by
  obtain ⟨h0, hbase, hrest⟩ := bind_eq_ok_iff.mp h
  obtain ⟨rows, hrows, hgens⟩ := bind_eq_ok_iff.mp hrest
  obtain rfl := Except.ok.inj hgens
  refine ⟨hP 0 h0 hbase, fun x hx => ?_⟩
  obtain ⟨i, hi⟩ := List.mem_iff_getElem.mp hx
  obtain ⟨hlt, rfl⟩ := hi
  have hall := forall₂_of_mapM_eq_ok hrows
  have hlt' : i < (List.range n).length := hall.length_eq ▸ hlt
  exact hP _ _ (List.Forall₂.get hall hlt' hlt)

/-- Over a prime modulus the derivation returns members. -/
theorem isMember_of_deriveAll (hp : G.p.Prime) {O : Oracle} {mixName : String}
    {seed : Option Bytes} {gens : Generators} (h : deriveAll O G mixName seed n = .ok gens) :
    G.IsMember gens.h0 ∧ ∀ x ∈ gens.rows, G.IsMember x :=
  forall_of_deriveAll (fun _ _ => isMember_of_derive hp) h

/-- Generators that are members are families of members. -/
theorem exists_generatorsOf {gens : Generators} (hlength : gens.rows.length = n)
    (hbase : G.IsMember gens.h0) (hrows : ∀ x ∈ gens.rows, G.IsMember x) :
    ∃ (h0 : Member G) (x : Fin n → Member G), gens = generatorsOf h0 x := by
  obtain ⟨h0, rows⟩ := gens
  have hvalid : ElementVector.validate G rows = .ok () :=
    forM_eq_ok_iff.mpr fun x hx => checkElement_eq_ok_iff.mpr (hrows x hx)
  obtain ⟨x, rfl⟩ := exists_elements hlength hvalid
  exact ⟨⟨h0, hbase⟩, x, rfl⟩

/-- Over a prime modulus the derivation returns a family of members. -/
theorem exists_generatorsOf_of_deriveAll (hp : G.p.Prime) {O : Oracle} {mixName : String}
    {seed : Option Bytes} {gens : Generators} (h : deriveAll O G mixName seed n = .ok gens) :
    ∃ (h0 : Member G) (x : Fin n → Member G), gens = generatorsOf h0 x := by
  obtain ⟨hbase, hrows⟩ := isMember_of_deriveAll hp h
  exact exists_generatorsOf (length_of_deriveAll h) hbase hrows

/-- No generator that is derived is the identity. -/
theorem ne_zero_of_deriveAll {O : Oracle} {mixName : String} {seed : Option Bytes} {h0 : Member G}
    {x : Fin n → Member G} (h : deriveAll O G mixName seed n = .ok (generatorsOf h0 x))
    (i : Fin n) : x i ≠ 0 := by
  have hvalue : ∀ y ∈ elements x, y.value ≠ 1 :=
    (forall_of_deriveAll (fun _ _ hderive => (exists_of_derive hderive).choose_spec.2.2) h).2
  intro hzero
  apply hvalue (x i).element (List.mem_ofFn.mpr ⟨i, rfl⟩)
  rw [hzero, Member.element_zero]
  rfl

end Generators

/-! ## Powers of the generator -/

namespace Group.Member

theorem generator_ne_zero : generator G ≠ 0 := by
  intro h
  have helement := congrArg Member.element h
  rw [element_zero] at helement
  have hvalue : G.g = 1 := congrArg Element.value helement
  exact Nat.ne_of_gt G.one_lt_g hvalue

/-- A scalar is determined by the power of the generator. -/
theorem smul_generator_injective : Function.Injective fun k : Scalar => k • generator G := by
  intro k k' h
  have hzero : (k - k') • generator G = 0 := by rw [sub_smul, sub_eq_zero.mpr h]
  rcases (Scalar.smul_eq_zero_iff Scalar.prime_order).mp hzero with hk | hg
  · exact sub_eq_zero.mp hk
  · exact absurd hg generator_ne_zero

/-- The residue of the generator has order `q`. -/
theorem isPrimitiveRoot_generator :
    IsPrimitiveRoot (generator G).residue Scalar.order := by
  have hne : (generator G).residue ≠ 1 := by
    intro h
    exact generator_ne_zero (residue_injective (by rw [h, residue_zero]))
  have horder : orderOf (generator G).residue = Scalar.order :=
    have : Fact Scalar.order.Prime := ⟨Scalar.prime_order⟩
    orderOf_eq_prime (generator G).residue_pow_order hne
  exact horder ▸ IsPrimitiveRoot.orderOf _

/-- Over a prime modulus every member is a power of the generator. -/
theorem exists_smul_generator (hp : G.p.Prime) (x : Member G) :
    ∃ k : Scalar, x = k • generator G := by
  have : Fact G.p.Prime := ⟨hp⟩
  have : NeZero Scalar.order := ⟨Scalar.prime_order.ne_zero⟩
  obtain ⟨i, hi, hpow⟩ :=
    isPrimitiveRoot_generator.eq_pow_of_pow_eq_one x.residue_pow_order
  exact ⟨⟨i, hi⟩, residue_injective (by rw [residue_smul, hpow])⟩

end Group.Member

namespace Generators

/-- Over a prime modulus the derived generators are powers of the generator. -/
theorem exists_gpow_of_deriveAll (hp : G.p.Prime) {O : Oracle} {mixName : String}
    {seed : Option Bytes} {gens : Generators} (h : deriveAll O G mixName seed n = .ok gens) :
    (∃ k, gens.h0 = G.gpow k) ∧ ∀ x ∈ gens.rows, ∃ k, x = G.gpow k := by
  have hpower : ∀ x, G.IsMember x → ∃ k, x = G.gpow k := by
    intro x hx
    obtain ⟨k, hk⟩ := Member.exists_smul_generator hp ⟨x, hx⟩
    exact ⟨k, (congrArg Member.element hk).trans (Member.gpow_eq k).symm⟩
  obtain ⟨hbase, hrows⟩ := isMember_of_deriveAll hp h
  exact ⟨hpower _ hbase, fun x hx => hpower x (hrows x hx)⟩

/-- Generators that are powers are given by their logarithms. -/
theorem exists_logs {gens : Generators} (hlength : gens.rows.length = n)
    (hbase : ∃ k, gens.h0 = G.gpow k) (hrows : ∀ x ∈ gens.rows, ∃ k, x = G.gpow k) :
    ∃ (ζ : Scalar) (η : Fin n → Scalar),
      gens = generatorsOf (ζ • Member.generator G) fun i => η i • Member.generator G := by
  obtain ⟨h0, rows⟩ := gens
  obtain ⟨ζ, hζ⟩ := hbase
  obtain ⟨x, rfl⟩ := exists_eq_ofFn hlength
  have hlog : ∀ i, ∃ k, x i = G.gpow k := fun i => hrows (x i) (List.mem_ofFn.mpr ⟨i, rfl⟩)
  choose η hη using hlog
  refine ⟨ζ, η, ?_⟩
  simp only [Member.gpow_eq] at hζ hη
  rw [generatorsOf, elements, ← hζ]
  simp only [← hη]

end Generators

end VerifiableMix
