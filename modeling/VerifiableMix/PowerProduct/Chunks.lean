/-!
# Cutting lists into pieces

`chunks n xs` cuts a list into pieces of `n` entries, the last of which may be
shorter.

## Main results

* `flatten_chunks` — the pieces hold every entry once, in order.
* `length_le_of_mem_chunks` — no piece is longer than `n`.
-/

namespace VerifiableMix

universe u
variable {α : Type u}

/-- Pieces of `n` entries, the last of which may be shorter; none when `n` is
zero. -/
def chunks (n : Nat) (xs : List α) : List (List α) :=
  if n = 0 ∨ xs = [] then []
  else xs.take n :: chunks n (xs.drop n)
termination_by xs.length
decreasing_by
  rename_i h
  have := List.length_pos_iff.mpr fun hx => h (.inr hx)
  simp only [List.length_drop]
  omega

theorem flatten_chunks {n : Nat} (hn : 0 < n) (xs : List α) : (chunks n xs).flatten = xs := by
  fun_induction chunks n xs with
  | case1 xs h => rcases h with h | h <;> simp_all
  | case2 xs h ih => simp [ih]

theorem length_le_of_mem_chunks {n : Nat} {xs piece : List α} (h : piece ∈ chunks n xs) :
    piece.length ≤ n := by
  fun_induction chunks n xs with
  | case1 => simp at h
  | case2 xs _ ih =>
    rcases List.mem_cons.mp h with rfl | h
    · simp only [List.length_take]; omega
    · exact ih h

end VerifiableMix
