import Mathlib.Algebra.Module.Prod
import VerifiableMix.Proofs.Group.Residue
import VerifiableMix.Proofs.Shuffle

/-!
# A cascade of mixes is one mix

In a cascade every mix shuffles the output of the one before.  A row that stands at
place `i` is re-encrypted there, moves on to `ψ i` and meets its next nonce at that
place.  Encryptions of zero under one key multiply to an encryption of zero, because
generator and key have an order that divides `q`; so two nonces on the way of a row
count as their sum, and two mixes are one mix.  The rows themselves can be anything.

The empty cascade is no mix: a mix reduces the rows, and the empty cascade leaves
them as they are.

## Main results

* `MixWitness.apply_andThen` — two mixes are one mix.
* `cascade_rowsOf` — a cascade is its first mix composed with all that follow.
* `cascade_eq_create` — the one mix: permutations compose, and nonces add up along
  the way of each row.
-/

namespace VerifiableMix

open VerifiableMix.Group Failure

variable {G : Group} {n w : Nat}

/-! ## Re-encrypting twice -/

/-- Products of ciphertexts can be regrouped, whatever the components are. -/
theorem Ciphertext.mul_regroup (x y z : Ciphertext) :
    (x.mul G y).mul G z = x.mul G (y.mul G z) := by
  simp only [Ciphertext.mul, Group.mul_regroup]

/-- Under a key that was checked, two re-encryptions are one with the sum of the
nonces. -/
theorem Ciphertext.reencrypt_reencrypt (x : Ciphertext) (pk : Member G) (r s : Scalar) :
    (x.reencrypt G ⟨pk.element⟩ r).reencrypt G ⟨pk.element⟩ s =
      x.reencrypt G ⟨pk.element⟩ (r + s) := by
  have hzero : (encryptZero G ⟨pk.element⟩ r).mul G (encryptZero G ⟨pk.element⟩ s) =
      encryptZero G ⟨pk.element⟩ (r + s) := by
    rw [encryptZero_eq, encryptZero_eq, encryptZero_eq, mul_cipher, add_smul]
  rw [reencrypt, reencrypt, mul_regroup, hzero, reencrypt]

/-! ## Witnesses from families -/

theorem get_ofFn {α : Type} (f : Fin n → α) (i : Fin n) : (Vector.ofFn f).get i = f i :=
  Vector.getElem_ofFn i.isLt

/-- The vectors of images of a bijection and of its inverse undo each other. -/
theorem get_ofFn_symm (pi : Equiv.Perm (Fin n)) (i : Fin n) :
    (Vector.ofFn pi.symm).get ((Vector.ofFn pi).get i) = i := by
  rw [get_ofFn, get_ofFn, pi.symm_apply_apply]

/-- The permutation that is given as a bijection. -/
def Permutation.ofPerm (pi : Equiv.Perm (Fin n)) : Permutation where
  size := n
  forward := Vector.ofFn pi
  backward := Vector.ofFn pi.symm
  backward_forward := get_ofFn_symm pi
  forward_backward := get_ofFn_symm pi.symm

theorem Permutation.toPerm_ofPerm (pi : Equiv.Perm (Fin n)) : (ofPerm pi).toPerm rfl = pi :=
  Equiv.ext (get_ofFn pi)

/-- The matrix with the given entries. -/
def ScalarMatrix.ofFamily (S : Fin n → Fin w → Scalar) : ScalarMatrix where
  rows := n
  cols := w
  entries := Vector.ofFn fun place => S place.divNat place.modNat

theorem ScalarMatrix.family_ofFamily (S : Fin n → Fin w → Scalar) :
    (ofFamily S).family rfl rfl = S := by
  refine funext fun (i : Fin n) => funext fun (k : Fin w) => ?_
  have hplace : i.val * w + k.val < n * w := index_lt i.isLt k.isLt
  have hrow : (⟨i.val * w + k.val, hplace⟩ : Fin (n * w)).divNat = i := by
    apply Fin.ext
    show (i.val * w + k.val) / w = i.val
    rw [Nat.mul_comm, Nat.mul_add_div (Nat.zero_lt_of_lt k.isLt), Nat.div_eq_of_lt k.isLt,
      Nat.add_zero]
  have hcolumn : (⟨i.val * w + k.val, hplace⟩ : Fin (n * w)).modNat = k := by
    apply Fin.ext
    show (i.val * w + k.val) % w = k.val
    rw [Nat.mul_add_mod', Nat.mod_eq_of_lt k.isLt]
  show (Vector.ofFn fun place => S place.divNat place.modNat)[i.val * w + k.val] = S i k
  rw [Vector.getElem_ofFn, hrow, hcolumn]

/-! ## One mix -/

/-- The witness of a mix of `n` rows of width `w`. -/
structure MixWitness (n w : Nat) where
  psi : Permutation
  nonces : ScalarMatrix
  size_eq : psi.size = n
  rows_eq : nonces.rows = n
  cols_eq : nonces.cols = w

namespace MixWitness

/-- Where the mix takes each row. -/
def perm (mix : MixWitness n w) : Equiv.Perm (Fin n) :=
  mix.psi.toPerm mix.size_eq

/-- The nonce for each entry. -/
def nonce (mix : MixWitness n w) : Fin n → Fin w → Scalar :=
  mix.nonces.family mix.rows_eq mix.cols_eq

theorem of?_psi (mix : MixWitness n w) (i : Fin n) : mix.psi.of? i = some (mix.perm i).val := by
  obtain ⟨psi, nonces, rfl, hrows, hcols⟩ := mix
  rw [Permutation.of?, dif_pos i.isLt]
  rfl

theorem get?_nonces (mix : MixWitness n w) (i : Fin n) (k : Fin w) :
    mix.nonces.get? i k = some (mix.nonce i k) :=
  mix.nonces.get?_eq_family mix.rows_eq mix.cols_eq i k

/-- The witness with given families. -/
def ofFamilies (pi : Equiv.Perm (Fin n)) (S : Fin n → Fin w → Scalar) : MixWitness n w where
  psi := Permutation.ofPerm pi
  nonces := ScalarMatrix.ofFamily S
  size_eq := rfl
  rows_eq := rfl
  cols_eq := rfl

@[simp] theorem perm_ofFamilies (pi : Equiv.Perm (Fin n)) (S : Fin n → Fin w → Scalar) :
    (ofFamilies pi S).perm = pi :=
  Permutation.toPerm_ofPerm pi

@[simp] theorem nonce_ofFamilies (pi : Equiv.Perm (Fin n)) (S : Fin n → Fin w → Scalar) :
    (ofFamilies pi S).nonce = S :=
  ScalarMatrix.family_ofFamily S

/-- What the mix makes of a family of entries. -/
def apply (G : Group) (pk : PublicKey) (mix : MixWitness n w) (R : Fin n → Fin w → Ciphertext) :
    Fin n → Fin w → Ciphertext :=
  fun j k => (R (mix.perm.symm j) k).reencrypt G pk (mix.nonce (mix.perm.symm j) k)

theorem create_rowsOf (hw : 0 < w) (R : Fin (n + 1) → Fin w → Ciphertext) (pk : PublicKey)
    (mix : MixWitness (n + 1) w) :
    Shuffle.create G (rowsOf R) pk mix.psi mix.nonces =
      .ok { mixed := rowsOf (mix.apply G pk R), nonces := mix.nonces, psi := mix.psi } :=
  Shuffle.create_rowsOf hw R pk mix.psi mix.nonces mix.size_eq mix.rows_eq mix.cols_eq

/-! ## Two mixes -/

/-- The mix that does what two mixes do one after the other: row `i` meets its
second nonce where the first mix took it. -/
def andThen (first second : MixWitness n w) : MixWitness n w :=
  ofFamilies (first.perm.trans second.perm)
    fun i k => first.nonce i k + second.nonce (first.perm i) k

@[simp] theorem perm_andThen (first second : MixWitness n w) (i : Fin n) :
    (first.andThen second).perm i = second.perm (first.perm i) := by
  rw [andThen, perm_ofFamilies, Equiv.trans_apply]

@[simp] theorem nonce_andThen (first second : MixWitness n w) (i : Fin n) (k : Fin w) :
    (first.andThen second).nonce i k = first.nonce i k + second.nonce (first.perm i) k := by
  rw [andThen, nonce_ofFamilies]

/-- Two mixes are one mix. -/
theorem apply_andThen (pk : Member G) (first second : MixWitness n w)
    (R : Fin n → Fin w → Ciphertext) :
    second.apply G ⟨pk.element⟩ (first.apply G ⟨pk.element⟩ R) =
      (first.andThen second).apply G ⟨pk.element⟩ R := by
  funext j k
  let middle := second.perm.symm j
  let i := first.perm.symm middle
  have hback : (first.andThen second).perm.symm j = i := by
    rw [andThen, perm_ofFamilies]
    rfl
  have hmiddle : first.perm i = middle := first.perm.apply_symm_apply middle
  calc second.apply G ⟨pk.element⟩ (first.apply G ⟨pk.element⟩ R) j k
      = ((R i k).reencrypt G ⟨pk.element⟩ (first.nonce i k)).reencrypt G ⟨pk.element⟩
          (second.nonce middle k) := rfl
    _ = (R i k).reencrypt G ⟨pk.element⟩ (first.nonce i k + second.nonce middle k) :=
        Ciphertext.reencrypt_reencrypt _ _ _ _
    _ = (R i k).reencrypt G ⟨pk.element⟩ ((first.andThen second).nonce i k) := by
        rw [nonce_andThen, hmiddle]
    _ = (first.andThen second).apply G ⟨pk.element⟩ R j k := by
        rw [apply, hback]

end MixWitness

/-! ## Cascades -/

/-- The rows after a chain of mixes, each applied to the output of the one
before. -/
def cascade (G : Group) (pk : PublicKey) :
    List Row → List (MixWitness n w) → Except Error (List Row)
  | rows, [] => .ok rows
  | rows, mix :: rest => do
    let shuffle ← Shuffle.create G rows pk mix.psi mix.nonces
    cascade G pk shuffle.mixed rest

/-- Where a row stands after a chain of mixes. -/
def placeAfter : List (MixWitness n w) → Fin n → Fin n
  | [], i => i
  | mix :: rest, i => placeAfter rest (mix.perm i)

/-- The sum of the nonces that an entry meets on its way. -/
def nonceAlong : List (MixWitness n w) → Fin n → Fin w → Scalar
  | [], _, _ => 0
  | mix :: rest, i, k => mix.nonce i k + nonceAlong rest (mix.perm i) k

/-- The nonces on the way, one for each mix of the chain. -/
theorem nonceAlong_eq_sum (mixes : List (MixWitness n w)) (i : Fin n) (k : Fin w) :
    nonceAlong mixes i k =
      ∑ t : Fin mixes.length, mixes[t].nonce (placeAfter (mixes.take t) i) k := by
  induction mixes generalizing i with
  | nil => rfl
  | cons mix rest ih =>
      have hsum := Fin.sum_univ_succ fun t : Fin (rest.length + 1) =>
        (mix :: rest)[t].nonce (placeAfter ((mix :: rest).take t) i) k
      rw [nonceAlong, ih]
      exact hsum.symm

/-- The one mix that a chain with a first mix amounts to. -/
def combined (first : MixWitness n w) (rest : List (MixWitness n w)) : MixWitness n w :=
  rest.foldl MixWitness.andThen first

theorem perm_combined (first : MixWitness n w) (rest : List (MixWitness n w)) (i : Fin n) :
    (combined first rest).perm i = placeAfter (first :: rest) i := by
  induction rest generalizing first with
  | nil => rfl
  | cons mix rest ih =>
      have hrest := ih (first.andThen mix)
      rw [placeAfter, MixWitness.perm_andThen] at hrest
      exact hrest

theorem nonce_combined (first : MixWitness n w) (rest : List (MixWitness n w)) (i : Fin n)
    (k : Fin w) : (combined first rest).nonce i k = nonceAlong (first :: rest) i k := by
  induction rest generalizing first with
  | nil => exact (add_zero _).symm
  | cons mix rest ih =>
      have hrest := ih (first.andThen mix)
      rw [nonceAlong, MixWitness.nonce_andThen, MixWitness.perm_andThen, add_assoc] at hrest
      exact hrest

/-- A cascade is its first mix composed with all that follow. -/
theorem cascade_rowsOf (hw : 0 < w) (pk : Member G) (R : Fin (n + 1) → Fin w → Ciphertext)
    (first : MixWitness (n + 1) w) (rest : List (MixWitness (n + 1) w)) :
    cascade G ⟨pk.element⟩ (rowsOf R) (first :: rest) =
      .ok (rowsOf ((combined first rest).apply G ⟨pk.element⟩ R)) := by
  induction rest generalizing first with
  | nil =>
      rw [cascade, first.create_rowsOf hw, ok_bind]
      rfl
  | cons mix rest ih =>
      -- the first two mixes are one, and so one mix less is left
      have hrest := ih (first.andThen mix)
      rw [cascade, MixWitness.create_rowsOf hw, ok_bind, ← MixWitness.apply_andThen] at hrest
      rw [cascade, first.create_rowsOf hw, ok_bind]
      dsimp only
      rw [cascade, mix.create_rowsOf hw, ok_bind]
      exact hrest

/-- A cascade of at least one mix under a checked key succeeds and gives the rows of
a single mix.  That mix takes each row where the mixes take it one after the other,
and its nonce for an entry is the sum of the nonces at the places through which the
row comes. -/
theorem cascade_eq_create {pk : PublicKey} (hpk : G.checkElement pk.key = .ok ())
    {rows : List Row} (hne : rows ≠ []) (hw : 0 < w) (hwidth : ∀ row ∈ rows, row.length = w)
    (hn : rows.length = n) {mixes : List (MixWitness n w)} (hmixes : mixes ≠ []) :
    ∃ single : MixWitness n w,
      (∀ i : Fin n, single.psi.of? i = some (placeAfter mixes i).val) ∧
      (∀ (i : Fin n) (k : Fin w), single.nonces.get? i k =
        some (∑ t : Fin mixes.length, mixes[t].nonce (placeAfter (mixes.take t) i) k)) ∧
      ∃ shuffle, Shuffle.create G rows pk single.psi single.nonces = .ok shuffle ∧
        cascade G pk rows mixes = .ok shuffle.mixed := by
  obtain ⟨m, R, _, rfl⟩ := exists_rowsOf_of_rowWidth (rowWidth_eq_ok_iff.mpr ⟨hne, hw, hwidth⟩)
  obtain rfl : m + 1 = n := (length_rowsOf R).symm.trans hn
  obtain ⟨first, rest, rfl⟩ := List.exists_cons_of_ne_nil hmixes
  let key : Member G := ⟨pk.key, checkElement_eq_ok_iff.mp hpk⟩
  let single := combined first rest
  refine ⟨single, fun i => ?_, fun i k => ?_, _, single.create_rowsOf hw R pk,
    cascade_rowsOf hw key R first rest⟩
  · rw [single.of?_psi, perm_combined]
  · rw [single.get?_nonces, nonce_combined, nonceAlong_eq_sum]

/-- Three rows, none of them reduced, go round by one place, and then the first two of
them change places. -/
theorem cascade_eq_create_three :
    let x (value : Nat) : Row := [⟨⟨value, 3⟩, ⟨Group.test.p + value, 0⟩⟩]
    let key : PublicKey := ⟨Group.test.generator⟩
    let round : MixWitness 3 1 :=
      ⟨⟨3, #v[1, 2, 0], #v[2, 0, 1], by decide, by decide⟩, ⟨3, 1, #v[10, 20, 30]⟩, rfl, rfl, rfl⟩
    let swap : MixWitness 3 1 :=
      ⟨⟨3, #v[1, 0, 2], #v[1, 0, 2], by decide, by decide⟩, ⟨3, 1, #v[1, 2, 3]⟩, rfl, rfl, rfl⟩
    ∃ single : MixWitness 3 1, single.psi.of? 0 = some 0 ∧ single.nonces.get? 0 0 = some 12 ∧
      ∃ shuffle, Shuffle.create Group.test [x 0, x 1, x 2] key single.psi single.nonces =
          .ok shuffle ∧
        cascade Group.test key [x 0, x 1, x 2] [round, swap] = .ok shuffle.mixed := by
  intro x key round swap
  have hkey : Group.test.checkElement key.key = .ok () :=
    checkElement_eq_ok_iff.mpr (Member.generator Group.test).isMember
  have hwidth : ∀ row ∈ [x 0, x 1, x 2], row.length = 1 := by simp [x]
  obtain ⟨single, hplace, hnonce, hrows⟩ := cascade_eq_create hkey (List.cons_ne_nil _ _)
    Nat.one_pos hwidth rfl (List.cons_ne_nil round [swap])
  refine ⟨single, ?_, ?_, hrows⟩
  · exact hplace 0
  · exact (hnonce 0 0).trans rfl

end VerifiableMix
