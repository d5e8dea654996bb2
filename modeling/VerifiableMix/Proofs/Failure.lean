import Mathlib.Data.List.FinRange
import VerifiableMix.Error

/-!
# Computations that can fail

The operations of the mix are computations in `Except`: guards in front, then
the work.  The simp lemmas of this module run such a computation when its
guards are known to hold, and take it apart when it is known to have
succeeded.

## Main results

* `bind_eq_ok_iff` — a sequence succeeds when its steps do, one after the other.
* `mapM_eq_pure`, `forall₂_of_mapM_eq_ok` — a traversal succeeds when every step does.
* `foldlM_eq_ok`, `foldlM_eq_error` — a fold succeeds when every step does, and fails with the
  one error that its steps know.
* `forM_eq_ok_iff` — a list of guards holds when every guard does.
* `AgreeUpTo.bind` — what follows two computations that agree keeps them in agreement.
-/

namespace VerifiableMix.Failure

variable {ε α β : Type}

/-! ## Running a computation -/

@[simp] theorem ok_bind (a : α) (f : α → Except ε β) : (Except.ok a >>= f) = f a := rfl

@[simp] theorem error_bind (e : ε) (f : α → Except ε β) :
    (Except.error e >>= f) = Except.error e := rfl

@[simp] theorem pure_eq_ok (a : α) : (pure a : Except ε α) = .ok a := rfl

@[simp] theorem throw_eq_error (e : ε) : (throw e : Except ε α) = .error e := rfl

/-- A length comparison of equal lengths lets the computation go on. -/
@[simp] theorem checkLength_self (check : LengthCheck) (n : Nat) :
    checkLength check n n = .ok () := by
  rw [checkLength_eq_ok_iff]

/-- A length comparison of different lengths ends the computation. -/
theorem checkLength_of_ne {check : LengthCheck} {expected actual : Nat} (h : expected ≠ actual) :
    checkLength check expected actual = .error (.lengthMismatch check expected actual) :=
  if_neg h

/-- A traversal whose steps all succeed gives the list of their results. -/
theorem mapM_eq_pure {m : Type → Type} [Monad m] [LawfulMonad m] {f : α → m β} {g : α → β}
    {xs : List α} (h : ∀ x ∈ xs, f x = pure (g x)) : xs.mapM f = pure (xs.map g) := by
  induction xs with
  | nil => rw [List.mapM_nil, List.map_nil]
  | cons x rest ih =>
      have hx := h x (by simp)
      have hrest := ih fun y hy => h y (by simp [hy])
      rw [List.mapM_cons, hx, hrest, pure_bind, pure_bind, List.map_cons]

theorem mapM_eq_ok {f : α → Except ε β} {g : α → β} {xs : List α}
    (h : ∀ x ∈ xs, f x = .ok (g x)) : xs.mapM f = .ok (xs.map g) :=
  mapM_eq_pure h

/-- A traversal of consecutive indices, as a function of the index. -/
theorem mapM_finRange_eq_ok {n : Nat} {f : Fin n → Except ε β} {g : Fin n → β}
    (h : ∀ i, f i = .ok (g i)) : (List.finRange n).mapM f = .ok (List.ofFn g) := by
  rw [mapM_eq_ok fun i _ => h i, List.finRange, List.map_ofFn]
  rfl

/-- A fold whose steps all succeed is the fold of their results. -/
theorem foldlM_eq_ok {f : β → α → Except ε β} {g : β → α → β} {xs : List α} (start : β)
    (h : ∀ x ∈ xs, ∀ acc, f acc x = .ok (g acc x)) :
    xs.foldlM f start = .ok (xs.foldl g start) := by
  induction xs generalizing start with
  | nil => rfl
  | cons x rest ih =>
      have hx := h x (by simp) start
      have hrest := ih (g start x) fun y hy => h y (by simp [hy])
      rw [List.foldlM_cons, hx, ok_bind, hrest, List.foldl_cons]

/-- A fold whose steps know one error fails with it when some step always does. -/
theorem foldlM_eq_error {f : β → α → Except ε β} {e : ε} {xs : List α} (start : β)
    (honly : ∀ x ∈ xs, ∀ acc e', f acc x = .error e' → e' = e)
    (hfails : ∃ x ∈ xs, ∀ acc, f acc x = .error e) :
    xs.foldlM f start = .error e := by
  induction xs generalizing start with
  | nil => simp at hfails
  | cons x rest ih =>
      rw [List.foldlM_cons]
      cases hstep : f start x with
      | error e' => rw [honly x (by simp) start e' hstep, error_bind]
      | ok next =>
          -- The step that always fails is still to come.
          obtain ⟨y, hy, hfail⟩ := hfails
          rcases List.mem_cons.mp hy with rfl | hy
          · have hne := hstep.symm.trans (hfail start)
            cases hne
          · exact ih next (fun z hz => honly z (by simp [hz])) ⟨y, hy, hfail⟩

/-! ## Taking a success apart -/

/-- A sequence succeeds when its steps do, one after the other. -/
theorem bind_eq_ok_iff {x : Except ε α} {f : α → Except ε β} {b : β} :
    (x >>= f) = .ok b ↔ ∃ a, x = .ok a ∧ f a = .ok b := by
  cases x <;> simp

/-- A sequence fails in the first step, or in the second after a success of the first. -/
theorem bind_eq_error_iff {x : Except ε α} {f : α → Except ε β} {e : ε} :
    (x >>= f) = .error e ↔ x = .error e ∨ ∃ a, x = .ok a ∧ f a = .error e := by
  cases x <;> simp

/-- Another wording of the failure does not touch a success. -/
theorem mapError_eq_ok_iff {ε' : Type} {x : Except ε α} {f : ε → ε'} {a : α} :
    x.mapError f = .ok a ↔ x = .ok a := by
  cases x <;> simp [Except.mapError]

/-- The results of a traversal are those of its steps. -/
theorem forall₂_of_mapM_eq_ok {f : α → Except ε β} {xs : List α} {ys : List β}
    (h : xs.mapM f = .ok ys) : List.Forall₂ (fun x y => f x = .ok y) xs ys := by
  induction xs generalizing ys with
  | nil =>
      obtain rfl : ys = [] := (Except.ok.inj h).symm
      exact List.Forall₂.nil
  | cons x rest ih =>
      rw [List.mapM_cons] at h
      obtain ⟨y, hy, hrest⟩ := bind_eq_ok_iff.mp h
      obtain ⟨ys, hys, hcons⟩ := bind_eq_ok_iff.mp hrest
      obtain rfl := Except.ok.inj hcons
      exact List.Forall₂.cons hy (ih hys)

/-- A list of guards holds when every guard does. -/
theorem forM_eq_ok_iff {f : α → Except ε Unit} {xs : List α} {u : Unit} :
    xs.forM f = .ok u ↔ ∀ x ∈ xs, f x = .ok () := by
  induction xs with
  | nil => simp [List.forM]
  | cons x rest ih =>
      show (f x >>= fun _ => rest.forM f) = .ok u ↔ _
      rw [bind_eq_ok_iff]
      simp only [ih, List.mem_cons, forall_eq_or_imp]
      constructor
      · rintro ⟨_, hx, hrest⟩
        exact ⟨hx, hrest⟩
      · rintro ⟨hx, hrest⟩
        exact ⟨(), hx, hrest⟩

/-! ## Computations that agree but for their errors -/

/-- Two computations with the same outcome, or with errors that may stand for each other. -/
inductive AgreeUpTo (P : ε → Prop) : Except ε α → Except ε α → Prop
  | same (x : Except ε α) : AgreeUpTo P x x
  | errors {e e' : ε} (he : P e) (he' : P e') : AgreeUpTo P (.error e) (.error e')

namespace AgreeUpTo

variable {P : ε → Prop} {x y : Except ε α}

/-- What follows two computations that agree keeps them in agreement. -/
theorem bind {f g : α → Except ε β} (h : AgreeUpTo P x y) (hnext : ∀ a, AgreeUpTo P (f a) (g a)) :
    AgreeUpTo P (x >>= f) (y >>= g) := by
  cases h with
  | same =>
      cases x with
      | ok a => exact hnext a
      | error e => exact .same (.error e)
  | errors he he' => exact .errors he he'

end AgreeUpTo

end VerifiableMix.Failure
