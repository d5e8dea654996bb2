import Mathlib.Data.ZMod.Basic
import VerifiableMix.PowMod.Lemmas
import VerifiableMix.PowerProduct

/-!
# The value of a product of powers

`value bases exps` is the number `∏ bᵢ ^ eᵢ`, before any reduction.  Every way
to compute a product of powers is measured against it.

## Main results

* `prod_chunks` — the values of the pieces multiply to the value of the whole.
* `chunks_eq_map_pieceAt` — how many pieces there are, and where each one begins.
* `foldl_mul_mod` — a product may be reduced at every step.
* `directFold_eq` — one power at a time gives the value modulo `m`.
-/

namespace VerifiableMix.PowerProduct

/-- The product of the powers of paired numbers. -/
def value (bases exps : List Nat) : Nat :=
  (List.zipWith (· ^ ·) bases exps).prod

@[simp] theorem value_nil_left (exps : List Nat) : value [] exps = 1 := rfl

@[simp] theorem value_nil_right (bases : List Nat) : value bases [] = 1 := by
  rw [value, List.zipWith_nil_right, List.prod_nil]

@[simp] theorem value_cons (b e : Nat) (bases exps : List Nat) :
    value (b :: bases) (e :: exps) = b ^ e * value bases exps := by
  rw [value, List.zipWith_cons_cons, List.prod_cons, value]

/-- Two lists of the same length in front give a factor of their own. -/
theorem value_append {bases exps : List Nat} (h : bases.length = exps.length)
    (bases' exps' : List Nat) :
    value (bases ++ bases') (exps ++ exps') = value bases exps * value bases' exps' := by
  rw [value, List.zipWith_append h, List.prod_append, value, value]

/-- Exponents that are sums of multiples split into powers of values. -/
theorem value_map_mul_add (f g : Nat → Nat) (k : Nat) (bases exps : List Nat) :
    value bases (exps.map fun e => f e * k + g e) =
      value bases (exps.map f) ^ k * value bases (exps.map g) := by
  induction bases generalizing exps with
  | nil => simp
  | cons b rest ih =>
      cases exps with
      | nil => simp
      | cons e exps =>
          simp only [List.map_cons, value_cons, ih]
          rw [Nat.pow_add, Nat.pow_mul, Nat.mul_pow]
          exact Nat.mul_mul_mul_comm _ _ _ _

/-- Exponents that are all zero give one. -/
theorem value_map_zero (bases exps : List Nat) : value bases (exps.map fun _ => 0) = 1 := by
  induction bases generalizing exps with
  | nil => rfl
  | cons b rest ih =>
      cases exps with
      | nil => rfl
      | cons e exps => rw [List.map_cons, value_cons, ih, Nat.pow_zero]

/-! ## Pieces -/

/-- Lists of one length run out together. -/
theorem exhausted_iff {n : Nat} {bases exps : List Nat} (hlength : bases.length = exps.length) :
    (n = 0 ∨ exps = []) ↔ (n = 0 ∨ bases = []) := by
  rw [← List.length_eq_zero_iff, ← List.length_eq_zero_iff, hlength]

/-- Lists of one length have the same number of pieces. -/
theorem length_chunks_congr {n : Nat} {bases exps : List Nat}
    (hlength : bases.length = exps.length) :
    (chunks n bases).length = (chunks n exps).length := by
  fun_induction chunks n bases generalizing exps with
  | case1 bases hstop => rw [chunks.eq_def n exps, if_pos ((exhausted_iff hlength).mpr hstop)]
  | case2 bases hstop ih =>
      have hdrop : (bases.drop n).length = (exps.drop n).length := by simp [hlength]
      rw [chunks.eq_def n exps, if_neg (mt (exhausted_iff hlength).mp hstop), List.length_cons,
        List.length_cons, ih hdrop]

/-- The pieces of two lists of one length pair up, and no pair is too long. -/
theorem length_of_mem_zip_chunks {n : Nat} {bases exps : List Nat}
    (hlength : bases.length = exps.length) {piece : List Nat × List Nat}
    (h : piece ∈ (chunks n bases).zip (chunks n exps)) :
    piece.1.length = piece.2.length ∧ piece.1.length ≤ n := by
  refine ⟨?_, length_le_of_mem_chunks (List.of_mem_zip h).1⟩
  fun_induction chunks n bases generalizing exps with
  | case1 => simp at h
  | case2 bases hstop ih =>
      rw [chunks.eq_def n exps, if_neg (mt (exhausted_iff hlength).mp hstop), List.zip_cons_cons,
        List.mem_cons] at h
      rcases h with rfl | h
      · simp [hlength]
      · exact ih (by simp [hlength]) h

/-- Every exponent stands in one of the pairs. -/
theorem exists_mem_zip_chunks {n : Nat} (hn : 0 < n) {bases exps : List Nat}
    (hlength : bases.length = exps.length) {e : Nat} (he : e ∈ exps) :
    ∃ piece ∈ (chunks n bases).zip (chunks n exps), e ∈ piece.2 := by
  rw [← flatten_chunks hn exps] at he
  obtain ⟨expPiece, hpiece, he⟩ := List.mem_flatten.mp he
  rw [← List.map_snd_zip (length_chunks_congr hlength).ge] at hpiece
  obtain ⟨piece, hmem, rfl⟩ := List.mem_map.mp hpiece
  exact ⟨piece, hmem, he⟩

/-- The pairs hold no other exponents. -/
theorem mem_of_mem_zip_chunks {n : Nat} (hn : 0 < n) {bases exps : List Nat}
    {piece : List Nat × List Nat} (h : piece ∈ (chunks n bases).zip (chunks n exps)) {e : Nat}
    (he : e ∈ piece.2) : e ∈ exps := by
  rw [← flatten_chunks hn exps]
  exact List.mem_flatten.mpr ⟨piece.2, (List.of_mem_zip h).2, he⟩

/-- The values of the pieces multiply to the value of the whole. -/
theorem prod_chunks {n : Nat} (hn : 0 < n) (f : Nat → Nat) {bases exps : List Nat}
    (hlength : bases.length = exps.length) :
    (((chunks n bases).zip (chunks n exps)).map fun piece =>
      value piece.1 (piece.2.map f)).prod = value bases (exps.map f) := by
  fun_induction chunks n bases generalizing exps with
  | case1 bases hstop =>
      have hbases : bases = [] := hstop.resolve_left (Nat.ne_of_gt hn)
      subst hbases
      simp
  | case2 bases hstop ih =>
      rw [chunks.eq_def n exps, if_neg (mt (exhausted_iff hlength).mp hstop), List.zip_cons_cons,
        List.map_cons, List.prod_cons, ih (by simp [hlength]), ← value_append (by simp [hlength]),
        ← List.map_append, List.take_append_drop, List.take_append_drop]

/-- The number of pieces of a list of the given length. -/
def pieceCount (n length : Nat) : Nat :=
  (length + (n - 1)) / n

/-- Piece `k` of a list; the last one may be shorter. -/
def pieceAt {α : Type} (n : Nat) (xs : List α) (k : Nat) : List α :=
  (xs.drop (k * n)).take n

theorem pieceCount_of_pos {n length : Nat} (hn : 0 < n) (hlength : 0 < length) :
    pieceCount n length = pieceCount n (length - n) + 1 := by
  have hfirst : length + (n - 1) = length - 1 + n := by omega
  rw [pieceCount, pieceCount, hfirst, Nat.add_div_right _ hn]
  rcases Nat.lt_or_ge length n with hlt | hge
  · have hnone : length - n = 0 := Nat.sub_eq_zero_of_le (Nat.le_of_lt hlt)
    rw [hnone, Nat.zero_add, Nat.div_eq_of_lt (by omega), Nat.div_eq_of_lt (by omega)]
  · have hrest : length - n + (n - 1) = length - 1 := by omega
    rw [hrest]

theorem pieceAt_succ {α : Type} (n : Nat) (xs : List α) (k : Nat) :
    pieceAt n xs (k + 1) = pieceAt n (xs.drop n) k := by
  rw [pieceAt, pieceAt, List.drop_drop, Nat.succ_mul, Nat.add_comm]

/-- The pieces one after the other. -/
theorem chunks_eq_map_pieceAt {α : Type} {n : Nat} (hn : 0 < n) (xs : List α) :
    chunks n xs = (List.range (pieceCount n xs.length)).map (pieceAt n xs) := by
  fun_induction chunks n xs with
  | case1 xs hstop =>
      obtain rfl : xs = [] := hstop.resolve_left (Nat.ne_of_gt hn)
      have hcount : pieceCount n 0 = 0 := Nat.div_eq_of_lt (by omega)
      rw [List.length_nil, hcount, List.range_zero, List.map_nil]
  | case2 xs hstop ih =>
      have hpos : 0 < xs.length := List.length_pos_iff.mpr fun hxs => hstop (.inr hxs)
      have hfirst : pieceAt n xs 0 = xs.take n := by rw [pieceAt, Nat.zero_mul, List.drop_zero]
      rw [ih, pieceCount_of_pos hn hpos, List.range_succ_eq_map, List.map_cons, List.map_map,
        hfirst, List.length_drop]
      congr 2
      funext k
      exact (pieceAt_succ n xs k).symm

/-! ## Reduction at every step -/

/-- Reducing every factor and every partial product does not change the residue. -/
theorem foldl_mul_mod (modulus : Nat) (values : List Nat) (start : Nat) :
    values.foldl (fun acc v => acc * (v % modulus) % modulus) (start % modulus) =
      start * values.prod % modulus := by
  induction values generalizing start with
  | nil => simp
  | cons v rest ih => rw [List.foldl_cons, ← Nat.mul_mod, ih, List.prod_cons, Nat.mul_assoc]

/-- One power at a time gives the value, reduced. -/
theorem directFold_eq (modulus : Nat) (bases exps : List Nat) :
    directFold modulus bases exps = value bases exps % modulus := by
  have hpowers : directFold modulus bases exps =
      (List.zipWith (· ^ ·) bases exps).foldl (fun acc v => acc * (v % modulus) % modulus)
        (1 % modulus) := by
    rw [← List.map_uncurry_zip_eq_zipWith, List.foldl_map, directFold]
    simp only [powMod_eq]
    rfl
  rw [hpowers, foldl_mul_mod, Nat.one_mul, value]

end VerifiableMix.PowerProduct
