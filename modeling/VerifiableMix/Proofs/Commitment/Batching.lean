import VerifiableMix.Proofs.Commitment.Permutation
import VerifiableMix.Proofs.Engine.Agreement

/-!
# Batches of commitments to a permutation

The commitment at place `j` holds generator `π⁻¹ j`, so raising it to `eⱼ` raises
generator `i` to `e (π i)`: along `π` the exponents come into the order of the
generators, while the nonces stay with their places.  The generators can be any
elements, and then the law is one between residue classes.  Only the powers of `g`
have exponents that count modulo `q`, and there they do because `g` is a member.

## Main results

* `prod_pow_classes` — the law on residue classes.
* `powerProduct_create` — the same for the commitments that are created.
-/

namespace VerifiableMix

open VerifiableMix.Group Failure

variable {G : Group} {n : Nat}

namespace PermutationCommitment

/-- The powers of commitments multiply to a power of `g` and to powers of the generators,
rearranged along `π`. -/
theorem prod_pow_classes (x : Fin n → ZMod G.p) (pi : Equiv.Perm (Fin n)) (r e : Fin n → Scalar) :
    ∏ j, ((r j • Member.generator G).residue * x (pi.symm j)) ^ (e j).val =
      ((∑ j, r j * e j) • Member.generator G).residue * ∏ i, x i ^ (e (pi i)).val := by
  have hnonces : ∏ j, (r j • Member.generator G).residue ^ (e j).val =
      ((∑ j, r j * e j) • Member.generator G).residue := by
    rw [Finset.sum_smul, Member.residue_sum]
    refine Finset.prod_congr rfl fun j _ => ?_
    rw [← Member.residue_smul, smul_smul, mul_comm]
  have hreindex : ∏ j, x (pi.symm j) ^ (e j).val = ∏ i, x i ^ (e (pi i)).val := by
    rw [← Equiv.prod_comp pi]
    simp
  simp only [mul_pow, Finset.prod_mul_distrib, hnonces, hreindex]

/-- The powers of commitments to any elements, multiplied by any engine. -/
theorem powerProduct_commitments (engine : Engine) (x : Fin n → Element)
    (pi : Equiv.Perm (Fin n)) (r e : Fin n → Scalar) :
    ∃ y, engine.powerProduct G (List.ofFn x) (List.ofFn fun i => e (pi i)) = .ok y ∧
      engine.powerProduct G (List.ofFn fun j => G.mul (G.gpow (r j)) (x (pi.symm j)))
        (List.ofFn e) = .ok (G.mul (G.gpow (∑ j, r j * e j)) y) := by
  refine ⟨_, engine.powerProduct_ofFn x _, ?_⟩
  have hclasses := prod_pow_classes (fun i => ((x i).value : ZMod G.p)) pi r e
  rw [engine.powerProduct_ofFn]
  refine congrArg Except.ok (element_congr ?_)
  rw [cast_value fun j => G.mul (G.gpow (r j)) (x (pi.symm j)), Nat.cast_mul, cast_gpow,
    Group.element, ZMod.natCast_mod, cast_value x, ← hclasses]
  simp only [cast_mul, cast_gpow]

/-- The product of commitments to any elements does not show the permutation. -/
theorem prod_commitments (x : Fin n → Element) (pi : Equiv.Perm (Fin n)) (r : Fin n → Scalar) :
    G.prod (List.ofFn fun j => G.mul (G.gpow (r j)) (x (pi.symm j))) =
      G.mul (G.gpow (∑ j, r j)) (G.prod (List.ofFn x)) := by
  -- all exponents are one
  have hclasses := prod_pow_classes (fun i => ((x i).value : ZMod G.p)) pi r 1
  simp only [Pi.one_apply, Scalar.val_one, pow_one, mul_one] at hclasses
  rw [prod_ofFn, prod_ofFn]
  refine element_congr ?_
  rw [Nat.cast_mul, cast_gpow, Group.element, ZMod.natCast_mod, Nat.cast_prod, Nat.cast_prod,
    ← hclasses]
  simp only [cast_mul, cast_gpow]

/-- Commit along `pi` to any elements as generators, and raise the commitments to the
exponents `e`.  Their product is the power of `g` by the inner product of nonces and
exponents, times the product of the generators raised to the exponents as `pi` permutes
them; where `pi` is an inverse, as for the commitments of a prover, these are the
exponents inverted along the permutation itself.  The product of the commitments alone is the
power of `g` by the sum of the nonces, times the product of the generators. -/
theorem powerProduct_create (engine : Engine) (pi : Permutation) {generators : ElementVector}
    {nonces e : ScalarVector} (hgenerators : generators.length = pi.size)
    (hnonces : nonces.length = pi.size) (he : e.length = pi.size) :
    ∃ (c : PermutationCommitment) (exponent : Scalar) (along : ScalarVector) (y : Element),
      create G pi generators nonces = .ok c ∧
      nonces.innerProduct e = .ok exponent ∧
      e.permute pi = .ok along ∧
      (∀ psi : Permutation, pi = psi.inverse → e.invert psi = .ok along) ∧
      (generators.pow G along).map G.prod = .ok y ∧
      (c.commitments.pow G e).map G.prod = .ok (G.mul (G.gpow exponent) y) ∧
      engine.powerProduct G generators along = .ok y ∧
      engine.powerProduct G c.commitments e = .ok (G.mul (G.gpow exponent) y) ∧
      G.prod c.commitments = G.mul (G.gpow c.nonceSum) (G.prod generators) := by
  obtain ⟨n, hn⟩ : ∃ n, pi.size = n := ⟨_, rfl⟩
  obtain ⟨x, rfl⟩ := exists_eq_ofFn (hgenerators.trans hn)
  obtain ⟨r, rfl⟩ := exists_eq_ofFn (hnonces.trans hn)
  obtain ⟨e, rfl⟩ := exists_eq_ofFn (he.trans hn)
  obtain ⟨y, hgens, hcommitments⟩ :=
    powerProduct_commitments (G := G) engine x (pi.toPerm hn) r e
  refine ⟨_, _, _, y, create_ofFn pi hn x r, ScalarVector.innerProduct_ofFn r e,
    ScalarVector.permute_ofFn pi hn e, ?_, ?_, ?_, hgens, hcommitments, ?_⟩
  · rintro psi rfl
    rw [Permutation.toPerm_inverse]
    exact ScalarVector.invert_ofFn psi hn e
  · rw [← engine.powerProduct_eq_pow G (by simp), hgens]
  · rw [← engine.powerProduct_eq_pow G (by simp), hcommitments]
  · rw [nonceSum, ScalarVector.sum_ofFn]
    exact prod_commitments x (pi.toPerm hn) r

/-- Three places in a circle, and generators that are not reduced or of a foreign width:
the exponent of generator 0 is that of place 1, and so on. -/
theorem powerProduct_create_circle :
    let G := Group.test
    let generators : ElementVector := [⟨2, 1⟩, ⟨G.p + 9, 65⟩, ⟨5, 0⟩]
    ∃ c y,
      create G ⟨3, #v[1, 2, 0], #v[2, 0, 1], by decide, by decide⟩ generators [4, 5, 6] = .ok c ∧
      Engine.powerProduct ⟨4, .windowed, 0⟩ G generators [0, 9, 7] = .ok y ∧
      Engine.powerProduct ⟨4, .windowed, 0⟩ G c.commitments [7, 0, 9] =
        .ok (G.mul (G.gpow 82) y) ∧
      G.prod c.commitments = G.mul (G.gpow c.nonceSum) (G.prod generators) := by
  intro G generators
  let pi : Permutation := ⟨3, #v[1, 2, 0], #v[2, 0, 1], by decide, by decide⟩
  have hgenerators : generators.length = pi.size := rfl
  have hnonces : ([4, 5, 6] : ScalarVector).length = pi.size := rfl
  have he : ([7, 0, 9] : ScalarVector).length = pi.size := rfl
  obtain ⟨c, exponent, along, y, hcreate, hexponent, halong, _, _, _, hgens, hcommitments, hprod⟩ :=
    powerProduct_create (G := G) ⟨4, .windowed, 0⟩ pi hgenerators hnonces he
  have hexponent' : ScalarVector.innerProduct [4, 5, 6] [7, 0, 9] = .ok 82 := by decide +kernel
  have halong' : ScalarVector.permute [7, 0, 9] pi = .ok [0, 9, 7] := by decide +kernel
  obtain rfl := Except.ok.inj (hexponent.symm.trans hexponent')
  obtain rfl := Except.ok.inj (halong.symm.trans halong')
  exact ⟨c, y, hcreate, hgens, hcommitments, hprod⟩

end PermutationCommitment

end VerifiableMix
