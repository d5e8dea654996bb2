import Mathlib.Order.Interval.Finset.Fin
import Mathlib.Tactic.Ring
import VerifiableMix.Proofs.Scalar.Vector

/-!
# Accumulations in closed form

The recurrence `xᵢ = xᵢ₋₁ wᵢ + bᵢ` carries the start value and every offset on by the
weights that follow.  So an entry is a sum with one term for each offset up to its place,
and the factors of a term are the weights behind that offset.  Running products are the
case without offsets.

## Main results

* `accumulate_closed` — the entries of a recurrence from any start value.
* `accumulations_exact` — both accumulations in closed form and step by step.
-/

namespace VerifiableMix.ScalarVector

variable {n : Nat}

theorem upTo_zero : Finset.Iic (0 : Fin (n + 1)) = {0} := by
  rw [← Finset.Icc_bot, bot_eq_zero, Finset.Icc_self]

/-- The places up to a later one are the first place and the places behind it. -/
theorem upTo_succ (i : Fin n) :
    Finset.Iic i.succ = Finset.cons 0 (Finset.Ioc 0 i.succ) Finset.left_notMem_Ioc := by
  rw [← Finset.Icc_bot, bot_eq_zero]
  exact Finset.Icc_eq_cons_Ioc (Fin.zero_le _)

/-- The start value is carried on by all weights up to the place, and every offset by the
weights behind it. -/
theorem accumulate_closed (start : Scalar) (b w : Fin n → Scalar) (i : Fin n) :
    accumulate start b w i =
      start * ∏ m ∈ Finset.Iic i, w m +
        ∑ k ∈ Finset.Iic i, b k * ∏ m ∈ Finset.Ioc k i, w m := by
  -- The first step makes a new start value, from which the rest goes on.
  induction n generalizing start with
  | zero => exact i.elim0
  | succ n ih =>
      cases i using Fin.cases with
      | zero => simp [accumulate, upTo_zero]
      | succ i =>
          rw [accumulate, Fin.cons_succ, ih, upTo_succ, Finset.prod_cons, Finset.sum_cons,
            ← Fin.map_succEmb_Iic, Finset.prod_map, Finset.sum_map]
          simp only [Fin.coe_succEmb, Fin.prod_Ioc_succ]
          ring

/-- Without a start value only the offsets are left. -/
theorem accumulate_zero_start (b w : Fin n → Scalar) (i : Fin n) :
    accumulate 0 b w i = ∑ k ∈ Finset.Iic i, b k * ∏ m ∈ Finset.Ioc k i, w m := by
  rw [accumulate_closed, zero_mul, zero_add]

/-- Without offsets only the start value is left. -/
theorem accumulate_zero_offsets (start : Scalar) (w : Fin n → Scalar) (i : Fin n) :
    accumulate start 0 w i = start * ∏ m ∈ Finset.Iic i, w m := by
  rw [accumulate_closed]
  simp

/-- The weight of the first place plays no part when there is no start value. -/
theorem accumulate_zero_start_congr (b : Fin n → Scalar) {w w' : Fin n → Scalar}
    (h : ∀ i : Fin n, 0 < i.val → w' i = w i) : accumulate 0 b w' = accumulate 0 b w := by
  funext i
  rw [accumulate_zero_start, accumulate_zero_start]
  refine Finset.sum_congr rfl fun k _ => congrArg (b k * ·) (Finset.prod_congr rfl fun m hm => ?_)
  exact h m (Nat.zero_lt_of_lt (Finset.mem_Ioc.mp hm).1)

/-- The two accumulations `x` and `y` over offsets `b` and weights `w`: in closed form, and as
recurrences over the vectors that are shifted by one place behind the start values. -/
structure Accumulates (b w x y : Fin n → Scalar) : Prop where
  recurrence_eq : recurrence (List.ofFn b) (List.ofFn w) = .ok (List.ofFn x)
  runningProducts_eq : runningProducts (List.ofFn w) = List.ofFn y
  sum_eq : ∀ i, x i = ∑ k ∈ Finset.Iic i, b k * ∏ m ∈ Finset.Ioc k i, w m
  product_eq : ∀ i, y i = ∏ m ∈ Finset.Iic i, w m
  last_eq : ∀ i : Fin n, i.val + 1 = n → y i = product (List.ofFn w)
  first_weight : ∀ w' : Fin n → Scalar, (∀ i : Fin n, 0 < i.val → w' i = w i) →
    recurrence (List.ofFn b) (List.ofFn w') = .ok (List.ofFn x)
  step_eq : ∃ xp yp : Fin n → Scalar,
    shiftIn (List.ofFn x) 0 = List.ofFn xp ∧ shiftIn (List.ofFn y) 1 = List.ofFn yp ∧
    ∀ i, x i = w i * xp i + b i ∧ y i = w i * yp i

theorem accumulates_accumulate (b w : Fin n → Scalar) :
    Accumulates b w (accumulate 0 b w) (accumulate 1 0 w) := by
  constructor
  case recurrence_eq => exact recurrence_ofFn b w
  case runningProducts_eq => exact runningProducts_ofFn w
  case sum_eq => exact accumulate_zero_start b w
  case product_eq =>
    intro i
    rw [accumulate_zero_offsets, one_mul]
  case last_eq =>
    intro i hi
    obtain ⟨n, rfl⟩ : ∃ m, n = m + 1 := ⟨i.val, hi.symm⟩
    obtain rfl : i = Fin.last n := Fin.ext (Nat.succ.inj hi)
    rw [accumulate_last, one_mul, product_ofFn]
  case first_weight =>
    intro w' h
    rw [recurrence_ofFn, accumulate_zero_start_congr b h]
  case step_eq =>
    refine ⟨_, _, shiftIn_ofFn 0 _, shiftIn_ofFn 1 _, fun i => ⟨?_, ?_⟩⟩
    · rw [accumulate_step, mul_comm]
    · rw [accumulate_step, mul_comm, Pi.zero_apply, add_zero]

/-- Only vectors of different lengths are refused. -/
theorem recurrence_eq_error_iff {offsets weights : ScalarVector} {error : Error} :
    recurrence offsets weights = .error error ↔ offsets.length ≠ weights.length ∧
      error = .lengthMismatch .recurrence offsets.length weights.length := by
  by_cases hlength : offsets.length = weights.length
  · obtain ⟨n, hn⟩ : ∃ n, weights.length = n := ⟨_, rfl⟩
    obtain ⟨b, rfl⟩ := exists_eq_ofFn (hlength.trans hn)
    obtain ⟨w, rfl⟩ := exists_eq_ofFn hn
    simp [recurrence_ofFn]
  · unfold recurrence
    rw [Failure.checkLength_of_ne hlength, Failure.error_bind]
    simp [hlength, eq_comm]

/-- Both accumulations succeed on vectors of one length, with entries in closed form that
satisfy the equation of every step, the first included; other vectors are refused. -/
theorem accumulations_exact :
    (∀ (n : Nat) (b w : Fin n → Scalar), ∃ x y, Accumulates b w x y) ∧
    ∀ (offsets weights : ScalarVector) (error : Error),
      recurrence offsets weights = .error error ↔ offsets.length ≠ weights.length ∧
        error = .lengthMismatch .recurrence offsets.length weights.length :=
  ⟨fun _ b w => ⟨_, _, accumulates_accumulate b w⟩, fun _ _ _ => recurrence_eq_error_iff⟩

end VerifiableMix.ScalarVector
