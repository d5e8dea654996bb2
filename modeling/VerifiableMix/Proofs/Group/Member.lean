import Mathlib.Algebra.Module.BigOperators
import VerifiableMix.Group.Lemmas
import VerifiableMix.Group.Vector
import VerifiableMix.Proofs.Scalar.Vector

/-!
# Members of the subgroup

An element that `checkElement` accepts is a *member*: it has the group's width,
is reduced, and its power `q` is one.  Members are closed under the operations
of the group, and they are written additively here, since scalars then act on
them linearly: `x + y` is the product, `k • x` the power, and an equation
between products of powers is an equation between linear combinations.

That the modulus is prime is nowhere needed.  The inverse is the power `p - 2`,
and `p - 1` is a multiple of `q`.

## Main results

* `checkElement_eq_ok_iff` — the check accepts exactly the members.
* `Member.instModule` — scalars act linearly on members.
* `exists_elements` — a vector that was checked is a family of members.
-/

namespace VerifiableMix.Group

variable {G : Group} {n : Nat}

/-- What the membership check establishes about an element. -/
structure IsMember (G : Group) (x : Element) : Prop where
  width_eq : x.width = G.width
  value_lt : x.value < G.p
  pow_order : x.value ^ Scalar.order % G.p = 1

theorem isMember_eq_true_iff {value : Nat} :
    G.isMember value = true ↔ value < G.p ∧ value ^ Scalar.order % G.p = 1 := by
  have hzero : (0 : Nat) ^ Scalar.order % G.p ≠ 1 := by
    rw [Nat.zero_pow Scalar.order_pos, Nat.zero_mod]
    decide
  simp only [isMember, powMod_eq, Bool.and_eq_true, decide_eq_true_eq, beq_iff_eq]
  constructor
  · rintro ⟨⟨_, hlt⟩, hpow⟩
    exact ⟨hlt, hpow⟩
  · rintro ⟨hlt, hpow⟩
    refine ⟨⟨Nat.pos_of_ne_zero ?_, hlt⟩, hpow⟩
    rintro rfl
    exact hzero hpow

/-- The check accepts exactly the members. -/
theorem checkElement_eq_ok_iff {x : Element} {u : Unit} :
    G.checkElement x = .ok u ↔ G.IsMember x := by
  unfold checkElement
  constructor
  · intro h
    split at h
    · rename_i hwidth
      split at h
      · rename_i hmember
        obtain ⟨hlt, hpow⟩ := isMember_eq_true_iff.mp hmember
        exact ⟨hwidth, hlt, hpow⟩
      · cases h
    · cases h
  · rintro ⟨hwidth, hlt, hpow⟩
    rw [if_pos hwidth, if_pos (isMember_eq_true_iff.mpr ⟨hlt, hpow⟩)]

/-! ## The group of members -/

/-- An element of the subgroup. -/
@[ext] structure Member (G : Group) where
  element : Element
  isMember : G.IsMember element

/-- An element that was checked is a member. -/
theorem exists_member {x : Element} (h : G.checkElement x = .ok ()) :
    ∃ member : Member G, x = member.element :=
  ⟨⟨x, checkElement_eq_ok_iff.mp h⟩, rfl⟩

namespace Member

/-- The residue class of a member. -/
def residue (x : Member G) : ZMod G.p := (x.element.value : ZMod G.p)

/-- A member is determined by its residue class. -/
theorem residue_injective : Function.Injective (residue (G := G)) := by
  intro x y h
  have hmod : x.element.value % G.p = y.element.value % G.p :=
    (ZMod.natCast_eq_natCast_iff' _ _ _).mp h
  rw [Nat.mod_eq_of_lt x.isMember.value_lt, Nat.mod_eq_of_lt y.isMember.value_lt] at hmod
  have hwidth : x.element.width = y.element.width := by
    rw [x.isMember.width_eq, y.isMember.width_eq]
  apply Member.ext
  show Element.mk x.element.value x.element.width = Element.mk y.element.value y.element.width
  rw [hmod, hwidth]

theorem residue_pow_order (x : Member G) : x.residue ^ Scalar.order = 1 := by
  have h : ((x.element.value ^ Scalar.order : Nat) : ZMod G.p) = ((1 : Nat) : ZMod G.p) := by
    rw [ZMod.natCast_eq_natCast_iff', x.isMember.pow_order, Nat.mod_eq_of_lt G.one_lt_p]
  simpa [residue] using h

/-- The member with a residue class whose power `q` is one. -/
def ofResidue (value : Nat) (h : (value : ZMod G.p) ^ Scalar.order = 1) : Member G where
  element := G.element (value % G.p)
  isMember :=
    { width_eq := rfl
      value_lt := Nat.mod_lt _ (Nat.lt_trans Nat.zero_lt_one G.one_lt_p)
      pow_order := by
        have hcast : ((value ^ Scalar.order : Nat) : ZMod G.p) = ((1 : Nat) : ZMod G.p) := by
          simpa using h
        rw [ZMod.natCast_eq_natCast_iff', Nat.mod_eq_of_lt G.one_lt_p] at hcast
        show (value % G.p) ^ Scalar.order % G.p = 1
        rw [← Nat.pow_mod, hcast] }

@[simp] theorem residue_ofResidue (value : Nat) (h : (value : ZMod G.p) ^ Scalar.order = 1) :
    (ofResidue value h).residue = value := by
  simp [residue, ofResidue, Group.element]

instance : Zero (Member G) := ⟨ofResidue 1 (by simp)⟩

instance : Add (Member G) :=
  ⟨fun x y => ofResidue (x.element.value * y.element.value) (by
    rw [Nat.cast_mul, mul_pow]
    exact (congrArg₂ (· * ·) x.residue_pow_order y.residue_pow_order).trans (mul_one 1))⟩

instance : Neg (Member G) :=
  ⟨fun x => ofResidue (x.element.value ^ (G.p - 2)) (by
    rw [Nat.cast_pow, pow_right_comm]
    exact (congrArg (· ^ (G.p - 2)) x.residue_pow_order).trans (one_pow _))⟩

instance : SMul Scalar (Member G) :=
  ⟨fun k x => ofResidue (x.element.value ^ k.val) (by
    rw [Nat.cast_pow, pow_right_comm]
    exact (congrArg (· ^ k.val) x.residue_pow_order).trans (one_pow _))⟩

@[simp] theorem residue_zero : (0 : Member G).residue = 1 := by
  show (ofResidue 1 _).residue = 1
  rw [residue_ofResidue, Nat.cast_one]

@[simp] theorem residue_add (x y : Member G) : (x + y).residue = x.residue * y.residue := by
  show (ofResidue _ _).residue = _
  rw [residue_ofResidue, Nat.cast_mul]
  rfl

@[simp] theorem residue_neg (x : Member G) : (-x).residue = x.residue ^ (G.p - 2) := by
  show (ofResidue _ _).residue = _
  rw [residue_ofResidue, Nat.cast_pow]
  rfl

@[simp] theorem residue_smul (k : Scalar) (x : Member G) :
    (k • x).residue = x.residue ^ k.val := by
  show (ofResidue _ _).residue = _
  rw [residue_ofResidue, Nat.cast_pow]
  rfl

/-- The power `p - 2` is the inverse, because `p - 1` is a multiple of `q`. -/
theorem residue_pow_mul_self (x : Member G) : x.residue ^ (G.p - 2) * x.residue = 1 := by
  have hp : G.p - 2 + 1 = Scalar.order * G.r := by
    have h1 := G.p_eq
    have h2 := G.one_lt_p
    omega
  rw [← pow_succ, hp, pow_mul, x.residue_pow_order, one_pow]

instance : AddCommGroup (Member G) where
  add_assoc x y z := residue_injective (by simp [mul_assoc])
  zero_add x := residue_injective (by simp)
  add_zero x := residue_injective (by simp)
  add_comm x y := residue_injective (by simp [mul_comm])
  neg_add_cancel x := residue_injective (by simp [residue_pow_mul_self])
  nsmul := nsmulRec
  zsmul := zsmulRec

/-- Exponents count modulo `q`. -/
theorem residue_pow_mod (x : Member G) (k : Nat) :
    x.residue ^ (k % Scalar.order) = x.residue ^ k :=
  (pow_eq_pow_mod k x.residue_pow_order).symm

/-- Scalars act linearly on members. -/
instance instModule : Module Scalar (Member G) where
  one_smul x := residue_injective (by simp)
  mul_smul a b x := residue_injective (by
    simp only [residue_smul, Scalar.val_mul, residue_pow_mod]
    rw [mul_comm, pow_mul])
  smul_zero a := residue_injective (by simp)
  smul_add a x y := residue_injective (by simp [mul_pow])
  add_smul a b x := residue_injective (by
    simp only [residue_smul, residue_add, Scalar.val_add, residue_pow_mod]
    rw [pow_add])
  zero_smul x := residue_injective (by simp)

/-- The class of a sum of members is the product of their classes. -/
theorem residue_sum (x : Fin n → Member G) : (∑ i, x i).residue = ∏ i, (x i).residue := by
  induction n with
  | zero => simp
  | succ n ih => rw [Fin.sum_univ_succ, Fin.prod_univ_succ, residue_add, ih]

/-! ## The operations of the group -/

variable (G) in
/-- The generator. -/
def generator : Member G :=
  ⟨G.generator, ⟨rfl, G.g_lt_p, by
    have h := G.g_pow_order
    rwa [powMod_eq] at h⟩⟩

theorem element_zero : (0 : Member G).element = G.one := by
  show G.element (1 % G.p) = G.element 1
  rw [Nat.mod_eq_of_lt G.one_lt_p]

theorem mul_element (x y : Member G) : G.mul x.element y.element = (x + y).element := rfl

theorem inv_element (x : Member G) : G.inv x.element = (-x).element := by
  show G.element (powMod x.element.value (G.p - 2) G.p) = _
  rw [powMod_eq]
  rfl

theorem div_element (x y : Member G) : G.div x.element y.element = (x - y).element := by
  rw [Group.div, inv_element, mul_element, sub_eq_add_neg]

theorem pow_element (x : Member G) (k : Scalar) : G.pow x.element k = (k • x).element := by
  show G.element (powMod x.element.value k.val G.p) = _
  rw [powMod_eq]
  rfl

theorem gpow_eq (k : Scalar) : G.gpow k = (k • generator G).element :=
  pow_element (generator G) k

/-- Two members are the same when their elements have the same value. -/
theorem sameValue_iff (x y : Member G) : x.element.sameValue y.element = true ↔ x = y := by
  rw [Element.sameValue, beq_iff_eq]
  constructor
  · intro h
    exact residue_injective (by rw [residue, residue, h])
  · rintro rfl
    rfl

end Member

/-! ## Vectors of members -/

/-- The elements of a family of members. -/
def elements (x : Fin n → Member G) : ElementVector :=
  List.ofFn fun i => (x i).element

@[simp] theorem length_elements (x : Fin n → Member G) : (elements x).length = n :=
  List.length_ofFn

theorem getElem?_elements (x : Fin n → Member G) (i : Fin n) :
    (elements x)[i.val]? = some (x i).element :=
  getElem?_ofFn (fun i => (x i).element) i

/-- Vectors of members are compared as families. -/
theorem sameValues_elements (x y : Fin n → Member G) :
    (elements x).sameValues (elements y) = true ↔ x = y := by
  rw [ElementVector.sameValues_eq_true_iff]
  constructor
  · intro h
    rw [ElementVector.values, ElementVector.values, elements, elements, List.map_ofFn,
      List.map_ofFn] at h
    funext i
    have hvalue : (x i).element.value = (y i).element.value := congrFun (List.ofFn_injective h) i
    exact Member.residue_injective (by rw [Member.residue, Member.residue, hvalue])
  · rintro rfl
    rfl

/-- A vector that was checked is a family of members. -/
theorem exists_elements {xs : ElementVector} {u : Unit} (hlength : xs.length = n)
    (h : xs.validate G = .ok u) : ∃ x : Fin n → Member G, xs = elements x := by
  obtain ⟨f, rfl⟩ := exists_eq_ofFn hlength
  have hmember : ∀ i, G.IsMember (f i) := by
    intro i
    have := Failure.forM_eq_ok_iff.mp h (f i) (List.mem_ofFn.mpr ⟨i, rfl⟩)
    exact checkElement_eq_ok_iff.mp this
  exact ⟨fun i => ⟨f i, hmember i⟩, rfl⟩

/-- Members pass the check again. -/
theorem validate_elements (x : Fin n → Member G) : (elements x).validate G = .ok () := by
  refine Failure.forM_eq_ok_iff.mpr fun y hy => ?_
  obtain ⟨i, rfl⟩ := List.mem_ofFn.mp hy
  exact checkElement_eq_ok_iff.mpr (x i).isMember

/-- The product of a vector. -/
theorem prod_elements (x : Fin n → Member G) : G.prod (elements x) = (∑ i, x i).element := by
  have hfold : ∀ (xs : List (Member G)) (start : Member G),
      (xs.map Member.element).foldl G.mul start.element = (start + xs.sum).element := by
    intro xs
    induction xs with
    | nil => intro start; simp
    | cons y rest ih =>
        intro start
        rw [List.map_cons, List.foldl_cons, Member.mul_element, ih, List.sum_cons, add_assoc]
  have hmap : elements x = (List.ofFn x).map Member.element := by
    rw [List.map_ofFn]
    rfl
  rw [Group.prod, hmap, ← Member.element_zero, hfold, zero_add, List.sum_ofFn]

end VerifiableMix.Group
