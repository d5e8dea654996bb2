import VerifiableMix.Proofs.Group.Member

/-!
# Elements as residue classes

An element that was never checked can be unreduced, outside the subgroup or
of a foreign width, so it is not a `Member`.  It still has a residue class,
and the operations of the group act on the classes as those of the ring `ZMod p`
do.  A result of a group operation is reduced and of the group's width, so its
class determines it.

## Main results

* `cast_mul`, `cast_pow`, `cast_gpow`, `cast_inv` — the operations on residue classes.
* `element_congr`, `mul_congr` — results are equal when their classes are.
* `mul_regroup` — products of unreduced elements can be regrouped.
* `prod_eq` — a product of unreduced elements can be reduced once, at the end.
-/

namespace VerifiableMix.Group

variable {G : Group} {n : Nat}

theorem cast_mul (x y : Element) :
    ((G.mul x y).value : ZMod G.p) = (x.value : ZMod G.p) * y.value := by
  rw [val_mul, ZMod.natCast_mod, Nat.cast_mul]

theorem cast_pow (x : Element) (k : Scalar) :
    ((G.pow x k).value : ZMod G.p) = (x.value : ZMod G.p) ^ k.val := by
  rw [val_pow, ZMod.natCast_mod, Nat.cast_pow]

theorem cast_gpow (k : Scalar) :
    ((G.gpow k).value : ZMod G.p) = (k • Member.generator G).residue := by
  rw [Member.gpow_eq]
  rfl

theorem cast_inv (x : Element) :
    ((G.inv x).value : ZMod G.p) = (x.value : ZMod G.p) ^ (G.p - 2) := by
  have hval : (G.inv x).value = x.value ^ (G.p - 2) % G.p := powMod_eq _ _ _
  rw [hval, ZMod.natCast_mod, Nat.cast_pow]

/-- Reduced elements are equal when their classes are. -/
theorem element_congr {a b : Nat} (h : (a : ZMod G.p) = b) :
    G.element (a % G.p) = G.element (b % G.p) := by
  rw [(ZMod.natCast_eq_natCast_iff' a b G.p).mp h]

/-- Products are equal when their classes are. -/
theorem mul_congr {x y x' y' : Element}
    (h : (x.value : ZMod G.p) * y.value = (x'.value : ZMod G.p) * y'.value) :
    G.mul x y = G.mul x' y' :=
  element_congr (by rw [Nat.cast_mul, Nat.cast_mul, h])

/-- Products can be regrouped. -/
theorem mul_regroup (x y z : Element) : G.mul (G.mul x y) z = G.mul x (G.mul y z) := by
  apply mul_congr
  rw [cast_mul, cast_mul, mul_assoc]

/-- One is neutral for products; of an unreduced element the product with one is
another element. -/
theorem mul_mul_one (x y : Element) : G.mul (G.mul x y) G.one = G.mul x y := by
  apply mul_congr
  have hone : (G.one.value : ZMod G.p) = 1 := Nat.cast_one
  rw [cast_mul, hone, mul_one]

/-- A product can be reduced once, at the end. -/
theorem prod_eq (xs : List Element) :
    G.prod xs = G.element ((xs.map Element.value).prod % G.p) := by
  have hfold : ∀ (xs : List Element) (start : Nat),
      xs.foldl G.mul (G.element (start % G.p)) =
        G.element (start * (xs.map Element.value).prod % G.p) := by
    intro xs
    induction xs with
    | nil => intro start; simp
    | cons x rest ih =>
        intro start
        have hstep : G.mul (G.element (start % G.p)) x = G.element (start * x.value % G.p) :=
          congrArg G.element (Nat.mod_mul_mod start x.value G.p)
        rw [List.foldl_cons, hstep, ih, List.map_cons, List.prod_cons, Nat.mul_assoc]
  have hone : G.one = G.element (1 % G.p) := by
    rw [Nat.mod_eq_of_lt G.one_lt_p]
    rfl
  rw [Group.prod, hone, hfold, Nat.one_mul]

theorem prod_ofFn (x : Fin n → Element) :
    G.prod (List.ofFn x) = G.element ((∏ i, (x i).value) % G.p) := by
  rw [prod_eq, List.map_ofFn, List.prod_ofFn]
  rfl

end VerifiableMix.Group
