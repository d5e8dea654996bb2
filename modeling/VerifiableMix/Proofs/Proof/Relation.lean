import Mathlib.Algebra.Module.LinearMap.Defs
import Mathlib.Tactic.Module
import VerifiableMix.Proofs.Ciphertext.Row
import VerifiableMix.Proof

/-!
# The relation behind a proof of shuffle

The equations of the verifier are one equation between vectors of members.  With
`φ` the linear map that takes a reply to the right-hand sides and `T` the vector
of the elements `A`, `B`, `C`, `D` and `F` on the left, a reply `k` is accepted
for the masks `m` at the challenge `v` when

`v • T + m = φ k`.

An *opening* is a preimage of `T` under `φ`.  A prover who knows one masks with
`φ ρ` for random `ρ` and replies `v • ω + ρ`; two accepted replies to different
challenges give one back.  Everything that is proved about a proof of shuffle
rests on these lemmas about a linear map.

## Main results

* `accepts_iff` — a prover with the opening `ω` is accepted exactly when the
  challenge kills the defect `T - φ ω`.
* `opens_of_accepts` — two accepted replies give an opening.
* `existsUnique_masks` — a reply determines its masks.
* `masks_eq` — another opening explains the same masks and reply.
-/

namespace VerifiableMix

open VerifiableMix.Group

/-! ## Linear maps -/

namespace LinearRelation

variable {X Y : Type} [AddCommGroup X] [Module Scalar X] [AddCommGroup Y] [Module Scalar Y]
variable (φ : X →ₗ[Scalar] Y) {target masks : Y}

/-- A reply is accepted for masks at a challenge. -/
def Accepts (target masks : Y) (v : Scalar) (k : X) : Prop :=
  v • target + masks = φ k

/-- A prover who masks with `φ ρ` and replies `v • ω + ρ` is accepted exactly
when the challenge kills the defect of `ω`. -/
theorem accepts_iff (ω ρ : X) (v : Scalar) :
    Accepts φ target (φ ρ) v (v • ω + ρ) ↔ v • (target - φ ω) = 0 := by
  rw [Accepts, map_add, map_smul, smul_sub, sub_eq_zero]
  exact add_left_inj (φ ρ)

/-- Two accepted replies to challenges with an invertible difference give an
opening. -/
theorem opens_of_accepts {v v' s : Scalar} (hs : (v - v') * s = 1) {k k' : X}
    (h : Accepts φ target masks v k) (h' : Accepts φ target masks v' k') :
    φ (s • (k - k')) = target := by
  have hdifference : φ (k - k') = (v - v') • target := by
    rw [map_sub, ← h, ← h', add_sub_add_right_eq_sub, sub_smul]
  rw [map_smul, hdifference, smul_smul, mul_comm, hs, one_smul]

/-- At each challenge a reply is accepted for exactly one choice of the masks. -/
theorem existsUnique_masks (target : Y) (v : Scalar) (k : X) :
    ∃! masks, Accepts φ target masks v k := by
  refine ⟨φ k - v • target, ?_, fun masks h => ?_⟩
  · exact add_sub_cancel (v • target) (φ k)
  · exact eq_sub_of_add_eq' h

/-- Another opening explains the same masks and reply. -/
theorem masks_eq {ω ω' : X} (hω : φ ω = target) (hω' : φ ω' = target) (v : Scalar) (ρ : X) :
    φ (v • ω + ρ - v • ω') = φ ρ := by
  rw [map_sub, map_add, map_smul, map_smul, hω, hω', add_sub_cancel_left]

end LinearRelation

/-! ## The relation of a shuffle -/

/-- The exponents of a reply: `kA`, `kB`, `kC`, `kD`, `kE` and `kF`.  An opening
holds `a`, `b`, `c`, `d`, the weights and `f` in their places. -/
abbrev Opening (n w : Nat) :=
  Scalar × (Fin n → Scalar) × Scalar × Scalar × (Fin n → Scalar) × (Fin w → Scalar)

/-- One side of the equations of the verifier, in the order of the letters. -/
abbrev Sides (G : Group) (n w : Nat) :=
  Member G × (Fin n → Member G) × Member G × Member G × (Fin w → Cipher G)

/-- What the equations of the verifier are about. -/
structure Relation (G : Group) (n w : Nat) where
  h0 : Member G
  generators : Fin n → Member G
  pk : Member G
  rows : Fin n → Fin w → Cipher G
  mixed : Fin n → Fin w → Cipher G
  u : Fin n → Member G
  e : Fin n → Scalar
  bridges : Fin n → Member G

namespace Relation

variable {G : Group} {n w : Nat}

/-- The right-hand sides of the equations for a reply. -/
def rightSides (I : Relation G n w) : Opening n w → Sides G n w
  | (a, b, c, d, weights, f) =>
    (a • Member.generator G + ∑ i, weights i • I.generators i,
      fun i => b i • Member.generator G + weights i • previous I.h0 I.bridges i,
      c • Member.generator G,
      d • Member.generator G,
      (fun k => -(f k) • zeroBase I.pk) + ∑ j, weights j • I.mixed j)

theorem rightSides_add (I : Relation G n w) (x y : Opening n w) :
    I.rightSides (x + y) = I.rightSides x + I.rightSides y := by
  obtain ⟨a, b, c, d, weights, f⟩ := x
  obtain ⟨a', b', c', d', weights', f'⟩ := y
  simp only [rightSides, Prod.mk_add_mk, Prod.mk.injEq, Pi.add_apply, add_smul,
    Finset.sum_add_distrib]
  refine ⟨add_add_add_comm _ _ _ _, ?_, trivial, trivial, ?_⟩
  · funext i
    exact add_add_add_comm _ _ _ _
  · rw [add_add_add_comm]
    congr 1
    funext k
    simp only [Pi.add_apply]
    module

theorem rightSides_smul (I : Relation G n w) (v : Scalar) (x : Opening n w) :
    I.rightSides (v • x) = v • I.rightSides x := by
  obtain ⟨a, b, c, d, weights, f⟩ := x
  simp only [rightSides, Prod.smul_mk, Prod.mk.injEq, Pi.smul_apply, smul_eq_mul, mul_smul,
    smul_add, Finset.smul_sum, true_and]
  refine ⟨?_, ?_⟩
  · funext i
    simp only [Pi.smul_apply, smul_add]
  · congr 1
    funext k
    simp only [Pi.smul_apply]
    module

/-- The right-hand sides, as a linear map on replies. -/
def sides (I : Relation G n w) : Opening n w →ₗ[Scalar] Sides G n w where
  toFun := I.rightSides
  map_add' := I.rightSides_add
  map_smul' := I.rightSides_smul

/-- The elements on the left-hand sides. -/
def target (I : Relation G (n + 1) w) : Sides G (n + 1) w :=
  (∑ j, I.e j • I.u j,
    I.bridges,
    ∑ j, I.u j - ∑ i, I.generators i,
    I.bridges (Fin.last n) - (∏ i, I.e i) • I.h0,
    ∑ i, I.e i • I.rows i)

end Relation

end VerifiableMix
