import VerifiableMix.Proofs.Failure
import VerifiableMix.Proofs.Scalar.Ring

/-!
# Vectors of scalars, entry by entry

A vector of `n` scalars is written `List.ofFn x` for the family `x` of its
entries.  In this form every operation on vectors of matching lengths succeeds,
and its result is again a family of entries, or a sum or a product over one.

The two accumulations of the commitment chain are recurrences: entry `i` comes
from entry `i - 1`, and entry 0 from a start value.  `previous first x` is the
family in which every entry of `x` stands one place later, with `first` in
front; in terms of it a recurrence is one equation for all places.

## Main results

* `accumulate_step` — the entries of a recurrence satisfy `xᵢ = xᵢ₋₁ wᵢ + bᵢ`.
* `recurrence_ofFn`, `runningProducts_ofFn` — both accumulations are recurrences.
* `accumulate_last` — running products end in the product.
-/

namespace VerifiableMix

universe u
variable {α : Type u} {n : Nat}

/-! ## The entry before -/

/-- The family whose entry 0 is `first` and whose entry `i + 1` is entry `i`. -/
def previous (first : α) (x : Fin n → α) (i : Fin n) : α :=
  (Fin.cons first x : Fin (n + 1) → α) i.castSucc

@[simp] theorem previous_zero (first : α) (x : Fin (n + 1) → α) :
    previous first x 0 = first := rfl

@[simp] theorem previous_succ (first : α) (x : Fin (n + 1) → α) (i : Fin n) :
    previous first x i.succ = x i.castSucc := by
  rw [previous, ← Fin.succ_castSucc, Fin.cons_succ]

/-- Behind a first entry, the entry before is the one of the rest. -/
theorem previous_cons_succ (first next : α) (x : Fin n → α) (i : Fin n) :
    previous first (Fin.cons next x : Fin (n + 1) → α) i.succ = previous next x i :=
  previous_succ first _ i

theorem previous_tail (x : Fin (n + 1) → α) (i : Fin n) :
    previous (x 0) (fun j => x j.succ) i = x i.castSucc := by
  rw [previous]
  exact congrFun (Fin.cons_self_tail x) i.castSucc

theorem map_previous {β : Type u} (f : α → β) (first : α) (x : Fin n → α) (i : Fin n) :
    f (previous first x i) = previous (f first) (fun j => f (x j)) i := by
  cases n with
  | zero => exact i.elim0
  | succ n =>
      cases i using Fin.cases with
      | zero => rfl
      | succ i => rw [previous_succ, previous_succ]

/-- The entry before is the one whose index is less by one. -/
theorem previous_of_succ (first : α) (x : Fin n → α) {i j : Fin n} (h : i.val + 1 = j.val) :
    previous first x j = x i := by
  have hplace : j.castSucc = i.succ := Fin.ext h.symm
  rw [previous, hplace, Fin.cons_succ]

/-- Families with the same entry before have the same `previous`. -/
theorem previous_congr {first : α} {x y : Fin n → α} {j : Fin n}
    (h : ∀ i : Fin n, i.val + 1 = j.val → x i = y i) :
    previous first x j = previous first y j := by
  cases n with
  | zero => exact j.elim0
  | succ n =>
      cases j using Fin.cases with
      | zero => rfl
      | succ j => rw [previous_succ, previous_succ, h j.castSucc rfl]

/-- The last entry of a family. -/
theorem getLast?_ofFn (x : Fin (n + 1) → α) :
    (List.ofFn x).getLast? = some (x (Fin.last n)) := by
  rw [List.ofFn_succ', List.concat_eq_append, List.getLast?_concat]

/-- A list of `n` entries is the list of a family. -/
theorem exists_eq_ofFn {xs : List α} (h : xs.length = n) : ∃ x : Fin n → α, xs = List.ofFn x := by
  subst h
  exact ⟨xs.get, (List.ofFn_get xs).symm⟩

theorem getElem?_ofFn (x : Fin n → α) (i : Fin n) : (List.ofFn x)[i.val]? = some (x i) := by
  simp

/-- The entry before, in a list with `first` in front. -/
theorem getElem?_cons_ofFn (first : α) (x : Fin n → α) (i : Fin n) :
    (first :: List.ofFn x)[i.val]? = some (previous first x i) := by
  rw [← List.ofFn_cons]
  exact getElem?_ofFn (Fin.cons first x : Fin (n + 1) → α) i.castSucc

/-- A function of the first indices is a family. -/
theorem map_range_eq_ofFn (f : Nat → α) (n : Nat) :
    (List.range n).map f = List.ofFn fun i : Fin n => f i := by
  rw [← List.map_coe_finRange_eq_range, List.map_map, List.finRange, List.map_ofFn]
  rfl

theorem zipWith_ofFn {β γ : Type u} (f : α → β → γ) (x : Fin n → α) (y : Fin n → β) :
    List.zipWith f (List.ofFn x) (List.ofFn y) = List.ofFn fun i => f (x i) (y i) := by
  apply List.ext_getElem <;> simp

/-- Pairing with a family that is shifted by one reads the entry before. -/
theorem zipWith_cons_ofFn {β γ : Type u} (f : α → β → γ) (first : α) (x : Fin n → α)
    (y : Fin n → β) :
    List.zipWith f (first :: List.ofFn x) (List.ofFn y) =
      List.ofFn fun i => f (previous first x i) (y i) := by
  induction n generalizing first with
  | zero => simp
  | succ n ih =>
      have hrest := ih (x 0) (fun i => x i.succ) fun i => y i.succ
      rw [List.ofFn_succ (f := x), List.ofFn_succ (f := y), List.zipWith_cons_cons, hrest,
        List.ofFn_succ]
      simp only [previous_zero, previous_tail, previous_succ]

namespace ScalarVector

/-! ## Entrywise operations -/

theorem innerProduct_ofFn (x y : Fin n → Scalar) :
    innerProduct (List.ofFn x) (List.ofFn y) = .ok (∑ i, x i * y i) := by
  simp [innerProduct, zipWith_ofFn, sum_ofFn]

theorem neg_ofFn (x : Fin n → Scalar) : neg (List.ofFn x) = List.ofFn fun i => -x i := by
  rw [neg, List.map_ofFn]
  rfl

theorem add_ofFn (x y : Fin n → Scalar) :
    add (List.ofFn x) (List.ofFn y) = .ok (List.ofFn fun i => x i + y i) := by
  simp [add, zipWith_ofFn]

theorem mul_ofFn (x y : Fin n → Scalar) :
    mul (List.ofFn x) (List.ofFn y) = .ok (List.ofFn fun i => x i * y i) := by
  simp [mul, zipWith_ofFn]

theorem scaleAdd_ofFn (x y : Fin n → Scalar) (k : Scalar) :
    scaleAdd (List.ofFn x) k (List.ofFn y) = .ok (List.ofFn fun i => x i * k + y i) := by
  rw [scaleAdd, scale, List.map_ofFn]
  exact add_ofFn (fun i => x i * k) y

theorem shiftIn_ofFn (first : Scalar) (x : Fin n → Scalar) :
    shiftIn (List.ofFn x) first = List.ofFn (previous first x) := by
  cases n with
  | zero => simp [shiftIn]
  | succ n =>
      have hfront : (List.ofFn x).dropLast = List.ofFn fun i => x i.castSucc := by
        rw [List.ofFn_succ', List.concat_eq_append, List.dropLast_concat]
      rw [shiftIn, hfront, List.ofFn_succ (f := previous first x)]
      simp

/-! ## Recurrences -/

/-- The entries of the recurrence `xᵢ = xᵢ₋₁ wᵢ + bᵢ` from a start value. -/
def accumulate : {n : Nat} → Scalar → (Fin n → Scalar) → (Fin n → Scalar) → Fin n → Scalar
  | 0, _, _, _ => Fin.elim0
  | _ + 1, start, b, w =>
    let next := start * w 0 + b 0
    Fin.cons next (accumulate next (fun i => b i.succ) fun i => w i.succ)

/-- Every entry comes from the one before. -/
theorem accumulate_step (start : Scalar) (b w : Fin n → Scalar) (i : Fin n) :
    accumulate start b w i = previous start (accumulate start b w) i * w i + b i := by
  induction n generalizing start with
  | zero => exact i.elim0
  | succ n ih =>
      have hrest := ih (start * w 0 + b 0) (fun j => b j.succ) (fun j => w j.succ)
      cases i using Fin.cases with
      | zero => rfl
      | succ i => rw [accumulate, Fin.cons_succ, previous_cons_succ, hrest i]

theorem recurrenceFrom_ofFn (start : Scalar) (b w : Fin n → Scalar) :
    recurrenceFrom start (List.ofFn b) (List.ofFn w) = List.ofFn (accumulate start b w) := by
  induction n generalizing start with
  | zero => simp [recurrenceFrom]
  | succ n ih =>
      rw [List.ofFn_succ (f := b), List.ofFn_succ (f := w), recurrenceFrom, ih, accumulate,
        List.ofFn_cons]

theorem recurrence_ofFn (b w : Fin n → Scalar) :
    recurrence (List.ofFn b) (List.ofFn w) = .ok (List.ofFn (accumulate 0 b w)) := by
  rw [← recurrenceFrom_ofFn]
  cases n with
  | zero => rfl
  | succ n => simp [recurrence, recurrenceFrom, List.ofFn_succ]

theorem productsFrom_ofFn (start : Scalar) (w : Fin n → Scalar) :
    productsFrom start (List.ofFn w) = List.ofFn (accumulate start 0 w) := by
  induction n generalizing start with
  | zero => simp [productsFrom]
  | succ n ih =>
      have hzero : start * w 0 + (0 : Fin (n + 1) → Scalar) 0 = start * w 0 := add_zero _
      rw [List.ofFn_succ, productsFrom, ih, accumulate, hzero, List.ofFn_cons]
      rfl

/-- Running products are a recurrence without offsets. -/
theorem runningProducts_ofFn (w : Fin n → Scalar) :
    runningProducts (List.ofFn w) = List.ofFn (accumulate 1 0 w) :=
  productsFrom_ofFn 1 w

/-- Running products end in the product. -/
theorem accumulate_last (start : Scalar) (w : Fin (n + 1) → Scalar) :
    accumulate start 0 w (Fin.last n) = start * ∏ i, w i := by
  induction n generalizing start with
  | zero => simp [accumulate]
  | succ n ih =>
      have hzero : start * w 0 + (0 : Fin (n + 2) → Scalar) 0 = start * w 0 := add_zero _
      rw [Fin.prod_univ_succ, ← mul_assoc, ← ih (start * w 0) fun i => w i.succ, accumulate,
        hzero, ← Fin.succ_last, Fin.cons_succ]
      rfl

end ScalarVector

end VerifiableMix
