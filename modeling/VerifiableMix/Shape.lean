import VerifiableMix.Error

/-!
# Shapes of row sets

A list of rows is rectangular when all rows have the length of the first.
`firstOfOtherLength` finds the row that is reported when they do not.

## Main results

* `firstOfOtherLength_eq_none_iff` — nothing is found exactly when every row
  has the length.
* `firstOfOtherLength_eq_some_iff` — what is found is the first row without it.
* `length_flatten_of_rectangular` — a rectangular list flattens to the product
  of its sides.
* `getElem?_flatten_of_rectangular` — where an entry stands after that.
-/

namespace VerifiableMix.Shape

universe u
variable {α : Type u}

/-- Index and length of the first row whose length is not `width`. -/
def firstOfOtherLength (width : Nat) : List (List α) → Option (Nat × Nat)
  | [] => none
  | row :: rest =>
    if row.length = width then
      (firstOfOtherLength width rest).map fun (index, length) => (index + 1, length)
    else some (0, row.length)

theorem firstOfOtherLength_eq_none_iff {width : Nat} {rows : List (List α)} :
    firstOfOtherLength width rows = none ↔ ∀ row ∈ rows, row.length = width := by
  induction rows with
  | nil => simp [firstOfOtherLength]
  | cons row rest ih =>
    by_cases h : row.length = width <;> simp [firstOfOtherLength, h, ih]

theorem firstOfOtherLength_eq_some_iff {width i length : Nat} {rows : List (List α)} :
    firstOfOtherLength width rows = some (i, length) ↔
      ∃ row, rows[i]? = some row ∧ row.length = length ∧ length ≠ width ∧
        ∀ j < i, ∀ other, rows[j]? = some other → other.length = width := by
  induction rows generalizing i with
  | nil => simp [firstOfOtherLength]
  | cons first rest ih =>
    by_cases hfirst : first.length = width
    · rw [firstOfOtherLength, if_pos hfirst, Option.map_eq_some_iff]
      constructor
      · rintro ⟨⟨k, found⟩, hfound, hpair⟩
        obtain ⟨rfl, rfl⟩ := Prod.mk.inj hpair
        obtain ⟨row, hrow, hlength, hne, hbefore⟩ := ih.mp hfound
        refine ⟨row, hrow, hlength, hne, fun j hj other hother => ?_⟩
        cases j with
        | zero => exact Option.some.inj hother ▸ hfirst
        | succ j => exact hbefore j (Nat.lt_of_succ_lt_succ hj) other hother
      · rintro ⟨row, hrow, hlength, hne, hbefore⟩
        cases i with
        | zero =>
          obtain rfl : first = row := Option.some.inj hrow
          exact absurd (hlength.symm.trans hfirst) hne
        | succ i =>
          refine ⟨(i, length), ih.mpr ⟨row, hrow, hlength, hne, fun j hj => ?_⟩, rfl⟩
          exact hbefore (j + 1) (Nat.succ_lt_succ hj)
    · rw [firstOfOtherLength, if_neg hfirst]
      constructor
      · intro h
        obtain ⟨rfl, rfl⟩ := Prod.mk.inj (Option.some.inj h)
        exact ⟨first, rfl, rfl, hfirst, fun j hj => absurd hj (Nat.not_lt_zero j)⟩
      · rintro ⟨row, hrow, rfl, _, hbefore⟩
        cases i with
        | zero =>
          obtain rfl : first = row := Option.some.inj hrow
          rfl
        | succ i => exact absurd (hbefore 0 (Nat.succ_pos i) first rfl) hfirst

theorem length_flatten_of_rectangular {width : Nat} {rows : List (List α)}
    (h : ∀ row ∈ rows, row.length = width) : rows.flatten.length = rows.length * width := by
  induction rows with
  | nil => simp
  | cons row rest ih =>
    have hrow := h row (by simp)
    have hrest := ih fun r hr => h r (by simp [hr])
    simp only [List.flatten_cons, List.length_append, List.length_cons, hrow, hrest]
    rw [Nat.succ_mul, Nat.add_comm]

/-- Entry `j` of row `i` stands behind `i` whole rows. -/
theorem getElem?_flatten_of_rectangular {width : Nat} {rows : List (List α)}
    (h : ∀ row ∈ rows, row.length = width) (i : Nat) {j : Nat} (hj : j < width) :
    rows.flatten[i * width + j]? = rows[i]?.bind fun row => row[j]? := by
  induction rows generalizing i with
  | nil => simp
  | cons first rest ih =>
    have hfirst := h first (by simp)
    have hrest := ih fun row hrow => h row (by simp [hrow])
    rw [List.flatten_cons]
    cases i with
    | zero =>
      rw [Nat.zero_mul, Nat.zero_add, List.getElem?_append_left (by omega)]
      rfl
    | succ i =>
      have hplace : (i + 1) * width + j = first.length + (i * width + j) := by
        rw [Nat.succ_mul, hfirst]
        omega
      rw [hplace, List.getElem?_append_right (Nat.le_add_right _ _), Nat.add_sub_cancel_left,
        hrest, List.getElem?_cons_succ]

end VerifiableMix.Shape
