import Mathlib.Tactic.Module
import VerifiableMix.Commitment.Permutation
import VerifiableMix.Proofs.Group.Member
import VerifiableMix.Proofs.Shuffle

/-!
# Commitments to a permutation as a family

The commitment at place `j` is `rⱼ • g + h_{π⁻¹ j}`.  A weighted sum of the
commitments is rearranged to a weighted sum of the generators by reading the
weights along `π`.

## Main results

* `create_ofFn`, `create_elements` — the commitments with given nonces.
* `combination_entries` — the weighted sum, in the order of the generators.
-/

namespace VerifiableMix

open VerifiableMix.Group Failure

variable {G : Group} {n : Nat}

namespace PermutationCommitment

/-- The commitments along `π` with nonces `r`. -/
def entries (x : Fin n → Member G) (pi : Equiv.Perm (Fin n)) (r : Fin n → Scalar) :
    Fin n → Member G :=
  fun j => r j • Member.generator G + x (pi.symm j)

/-- The commitments with given nonces, whatever the generators are. -/
theorem create_ofFn (psi : Permutation) (h : psi.size = n) (x : Fin n → Element)
    (r : Fin n → Scalar) :
    create G psi (List.ofFn x) (List.ofFn r) =
      .ok { commitments := List.ofFn fun j =>
              G.mul (G.gpow (r j)) (x ((psi.toPerm h).symm j))
            nonces := List.ofFn r } := by
  subst h
  have hg : psi.size = (List.ofFn x).length := (List.length_ofFn).symm
  have hn : psi.size = (List.ofFn r).length := (List.length_ofFn).symm
  have hentry : ∀ j : Fin psi.size,
      G.mul (G.gpow ((List.ofFn r).get (j.cast hn))) ((List.ofFn x).get ((psi.inv j).cast hg)) =
        G.mul (G.gpow (r j)) (x (psi.inv j)) := by
    intro j
    have hnonce : (List.ofFn r).get (j.cast hn) = r j := List.get_ofFn r _
    have hgenerator : (List.ofFn x).get ((psi.inv j).cast hg) = x (psi.inv j) :=
      List.get_ofFn x _
    rw [hnonce, hgenerator]
  rw [create, dif_pos hg, dif_pos hn]
  simp only [hentry]
  rfl

/-- The commitments to members. -/
theorem create_elements (psi : Permutation) (h : psi.size = n) (x : Fin n → Member G)
    (r : Fin n → Scalar) :
    create G psi (elements x) (List.ofFn r) =
      .ok { commitments := elements (entries x (psi.toPerm h) r), nonces := List.ofFn r } := by
  rw [elements, create_ofFn psi h]
  simp only [Member.gpow_eq, Member.mul_element]
  rfl

/-- The weighted sum of the commitments, in the order of the generators. -/
theorem combination_entries (x : Fin n → Member G) (pi : Equiv.Perm (Fin n))
    (r e : Fin n → Scalar) :
    ∑ j, e j • entries x pi r j =
      (∑ j, r j * e j) • Member.generator G + ∑ i, e (pi i) • x i := by
  have hreindex : ∑ j, e j • x (pi.symm j) = ∑ i, e (pi i) • x i := by
    rw [← Equiv.sum_comp pi]
    simp
  rw [← hreindex, Finset.sum_smul, ← Finset.sum_add_distrib]
  refine Finset.sum_congr rfl fun j _ => ?_
  rw [entries]
  module

end PermutationCommitment

end VerifiableMix
