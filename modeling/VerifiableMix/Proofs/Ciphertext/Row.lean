import Mathlib.Algebra.Module.Prod
import VerifiableMix.Ciphertext.Row
import VerifiableMix.Group.Builtin
import VerifiableMix.Proofs.Group.Member

/-!
# Row sets of members

A row set that has a width is a family of entries, whatever the entries are.

A ciphertext that was checked is a pair of members, a checked row a family of
such pairs, and a checked row set a family of rows.  Products and powers of
ciphertexts are componentwise, so rows are vectors over the scalars, and the
encryptions of zero under a key are the multiples of one pair.

## Main results

* `rowWidth_eq_ok_iff` — which row sets have a width.
* `exists_rowsOf_of_rowWidth` — a row set that has a width is a family of entries.
* `exists_rowSet` — a row set that was checked is a family of rows of members.
* `Row.encryptZeroNeg_mul` — encryptions of zero under negated nonces are undone.
* `Row.sameValues_iff` — rows are compared as families.
-/

namespace VerifiableMix

open VerifiableMix.Group

variable {G : Group} {n w : Nat}

/-- The width of a row set is that of its first row, if all rows have it. -/
theorem rowWidth_eq_ok_iff {rows : List Row} :
    rowWidth rows = .ok w ↔ rows ≠ [] ∧ 0 < w ∧ ∀ row ∈ rows, row.length = w := by
  cases rows with
  | nil => simp [rowWidth]
  | cons first rest =>
      simp only [rowWidth]
      constructor
      · intro h
        by_cases hempty : first.length = 0
        · rw [if_pos hempty] at h
          cases h
        · rw [if_neg hempty] at h
          cases hfault : Shape.firstOfOtherLength first.length (first :: rest) with
          | some fault => simp [hfault] at h
          | none =>
              obtain rfl : first.length = w := by simpa [hfault] using h
              exact ⟨List.cons_ne_nil _ _, Nat.pos_of_ne_zero hempty,
                Shape.firstOfOtherLength_eq_none_iff.mp hfault⟩
      · rintro ⟨_, hpos, hrect⟩
        obtain rfl : first.length = w := hrect first (by simp)
        rw [if_neg (Nat.ne_of_gt hpos), Shape.firstOfOtherLength_eq_none_iff.mpr hrect]

/-! ## Families of ciphertexts -/

/-- The row set with given entries, which need not be members. -/
def rowsOf (R : Fin n → Fin w → Ciphertext) : List Row :=
  List.ofFn fun i => List.ofFn (R i)

@[simp] theorem length_rowsOf (R : Fin n → Fin w → Ciphertext) : (rowsOf R).length = n :=
  List.length_ofFn

theorem length_of_mem_rowsOf (R : Fin n → Fin w → Ciphertext) : ∀ r ∈ rowsOf R, r.length = w := by
  intro r hr
  obtain ⟨i, rfl⟩ := List.mem_ofFn.mp hr
  exact List.length_ofFn

/-- The ciphertext in row `i` and column `k`, or nothing outside the rows. -/
def ciphertextAt (rows : List Row) (i k : Nat) : Option Ciphertext :=
  rows[i]?.bind fun row => row[k]?

theorem ciphertextAt_rowsOf (R : Fin n → Fin w → Ciphertext) (i : Fin n) (k : Fin w) :
    ciphertextAt (rowsOf R) i k = some (R i k) := by
  have hrow : (rowsOf R)[i.val]? = some (List.ofFn (R i)) :=
    getElem?_ofFn (fun i => List.ofFn (R i)) i
  rw [ciphertextAt, hrow, Option.bind_some, getElem?_ofFn]

theorem rowWidth_rowsOf (hw : 0 < w) (R : Fin (n + 1) → Fin w → Ciphertext) :
    rowWidth (rowsOf R) = .ok w :=
  rowWidth_eq_ok_iff.mpr ⟨by simp [rowsOf], hw, length_of_mem_rowsOf R⟩

/-- A row set that has a width is a family of entries, with at least one row. -/
theorem exists_rowsOf_of_rowWidth {rows : List Row} (hwidth : rowWidth rows = .ok w) :
    ∃ (n : Nat) (R : Fin (n + 1) → Fin w → Ciphertext), 0 < w ∧ rows = rowsOf R := by
  obtain ⟨hne, hw, hrect⟩ := rowWidth_eq_ok_iff.mp hwidth
  obtain ⟨n, hn⟩ : ∃ n, rows.length = n + 1 :=
    Nat.exists_eq_succ_of_ne_zero fun hzero => hne (List.length_eq_zero_iff.mp hzero)
  obtain ⟨f, rfl⟩ := exists_eq_ofFn hn
  have hrow : ∀ i, ∃ r : Fin w → Ciphertext, f i = List.ofFn r := fun i =>
    exists_eq_ofFn (hrect (f i) (List.mem_ofFn.mpr ⟨i, rfl⟩))
  choose R hR using hrow
  exact ⟨n, R, hw, by rw [rowsOf, funext hR]⟩

/-- Column `k` of a family. -/
theorem rowColumn_rowsOf (R : Fin n → Fin w → Ciphertext) (k : Fin w) :
    rowColumn (rowsOf R) k = List.ofFn fun i => R i k := by
  rw [rowColumn, rowsOf]
  induction n with
  | zero => rfl
  | succ n ih =>
      rw [List.ofFn_succ, List.filterMap_cons, getElem?_ofFn (R 0) k, List.ofFn_succ]
      exact congrArg (R 0 k :: ·) (ih fun i => R i.succ)

/-- Re-encryption goes entry by entry. -/
theorem Row.reencrypt_ofFn (r : Fin w → Ciphertext) (pk : PublicKey) (f : Fin w → Scalar) :
    Row.reencrypt G (List.ofFn r) pk (List.ofFn f) =
      .ok (List.ofFn fun k => (r k).reencrypt G pk (f k)) := by
  rw [Row.reencrypt, List.length_ofFn, List.length_ofFn, Failure.checkLength_self, zipWith_ofFn]
  rfl

namespace Group

/-- The components of a ciphertext that was checked. -/
abbrev Cipher (G : Group) := Member G × Member G

/-- The ciphertext with given components. -/
def cipher (c : Cipher G) : Ciphertext :=
  { pad := c.1.element, data := c.2.element }

/-- The row with given ciphertexts. -/
def row (r : Fin w → Cipher G) : Row :=
  List.ofFn fun k => cipher (r k)

/-- The row set with given rows. -/
def rowSet (R : Fin n → Fin w → Cipher G) : List Row :=
  List.ofFn fun i => row (R i)

/-- The pair whose multiples are the encryptions of zero under a key. -/
def zeroBase (pk : Member G) : Cipher G :=
  (Member.generator G, pk)

@[simp] theorem length_row (r : Fin w → Cipher G) : (row r).length = w :=
  List.length_ofFn

@[simp] theorem length_rowSet (R : Fin n → Fin w → Cipher G) : (rowSet R).length = n :=
  List.length_ofFn

end Group

/-! ## Ciphertexts -/

namespace Ciphertext

theorem one_eq : Ciphertext.one G = cipher (0 : Cipher G) := by
  rw [Ciphertext.one, ← Member.element_zero]
  rfl

theorem mul_cipher (x y : Cipher G) : (cipher x).mul G (cipher y) = cipher (x + y) := rfl

theorem pow_cipher (x : Cipher G) (k : Scalar) : (cipher x).pow G k = cipher (k • x) := by
  rw [Ciphertext.pow, cipher, Member.pow_element, Member.pow_element]
  rfl

theorem encryptZero_eq (pk : Member G) (r : Scalar) :
    encryptZero G ⟨pk.element⟩ r = cipher (r • zeroBase pk) := by
  rw [encryptZero, Member.gpow_eq, Member.pow_element]
  rfl

theorem encrypt_eq (pk : Member G) (m r : Scalar) :
    encrypt G ⟨pk.element⟩ m r = cipher ((0, m • Member.generator G) + r • zeroBase pk) := by
  rw [encrypt, Member.gpow_eq, Member.gpow_eq, Member.pow_element, Member.mul_element, zeroBase,
    Prod.smul_mk, Prod.mk_add_mk, zero_add]
  rfl

theorem reencrypt_cipher (x : Cipher G) (pk : Member G) (r : Scalar) :
    (cipher x).reencrypt G ⟨pk.element⟩ r = cipher (x + r • zeroBase pk) := by
  rw [reencrypt, encryptZero_eq, mul_cipher]

theorem sameValue_iff (x y : Cipher G) : (cipher x).sameValue (cipher y) = true ↔ x = y := by
  rw [sameValue, Bool.and_eq_true, cipher, cipher, Member.sameValue_iff, Member.sameValue_iff,
    Prod.ext_iff]

theorem cipher_injective : Function.Injective (cipher (G := G)) := by
  intro x y h
  rw [cipher, cipher, Ciphertext.mk.injEq] at h
  exact Prod.ext (Member.ext h.1) (Member.ext h.2)

/-- A ciphertext that was checked has members as components. -/
theorem exists_cipher {x : Ciphertext} (h : x.validate G = .ok ()) :
    ∃ c : Cipher G, x = cipher c := by
  obtain ⟨_, hpad, hdata⟩ := Failure.bind_eq_ok_iff.mp h
  exact ⟨(⟨x.pad, checkElement_eq_ok_iff.mp hpad⟩, ⟨x.data, checkElement_eq_ok_iff.mp hdata⟩),
    rfl⟩

theorem validate_cipher (c : Cipher G) : (cipher c).validate G = .ok () := by
  have hpad : G.checkElement c.1.element = .ok () := checkElement_eq_ok_iff.mpr c.1.isMember
  have hdata : G.checkElement c.2.element = .ok () := checkElement_eq_ok_iff.mpr c.2.isMember
  rw [validate, cipher, hpad, hdata]
  rfl

end Ciphertext

/-! ## Rows -/

namespace Row

theorem mul_row (r s : Fin w → Cipher G) : (row r).mul G (row s) = .ok (row (r + s)) := by
  rw [Row.mul, length_row, length_row, Failure.checkLength_self, row, row, zipWith_ofFn]
  rfl

theorem pow_row (r : Fin w → Cipher G) (k : Scalar) : (row r).pow G k = row (k • r) := by
  rw [Row.pow, row, row, List.map_ofFn]
  congr 1
  funext i
  exact Ciphertext.pow_cipher (r i) k

theorem encryptZeroNeg_ofFn (pk : Member G) (f : Fin w → Scalar) :
    encryptZeroNeg G ⟨pk.element⟩ (List.ofFn f) = row fun k => -(f k) • zeroBase pk := by
  rw [encryptZeroNeg, row, List.map_ofFn]
  congr 1
  funext k
  exact Ciphertext.encryptZero_eq pk (-(f k))

/-- Encryptions of zero under negated nonces undo those under the nonces. -/
theorem encryptZeroNeg_mul (pk : Member G) (nonces : ScalarVector) :
    (encryptZeroNeg G ⟨pk.element⟩ nonces).mul G
        (nonces.map (Ciphertext.encryptZero G ⟨pk.element⟩)) =
      .ok (List.replicate nonces.length (Ciphertext.one G)) := by
  obtain ⟨w, f, rfl⟩ : ∃ (w : Nat) (f : Fin w → Scalar), nonces = List.ofFn f :=
    ⟨nonces.length, exists_eq_ofFn rfl⟩
  have hzeros : (List.ofFn f).map (Ciphertext.encryptZero G ⟨pk.element⟩) =
      row fun k => f k • zeroBase pk := by
    rw [List.map_ofFn, row]
    congr 1
    funext k
    exact Ciphertext.encryptZero_eq pk (f k)
  have hundone : ((fun k => -(f k) • zeroBase pk) + fun k => f k • zeroBase pk) =
      fun _ => (0 : Cipher G) := by
    funext k
    rw [Pi.add_apply, ← add_smul, neg_add_cancel, zero_smul]
  rw [encryptZeroNeg_ofFn, hzeros, mul_row, hundone, List.length_ofFn, Ciphertext.one_eq, row,
    List.ofFn_const]

/-- Rows are compared as families. -/
theorem sameValues_iff (r s : Fin w → Cipher G) :
    (row r).sameValues (row s) = true ↔ r = s := by
  induction w with
  | zero => simp [row, sameValues, Subsingleton.elim r s]
  | succ w ih =>
      have hrest := ih (fun k => r k.succ) (fun k => s k.succ)
      rw [row, row, List.ofFn_succ, List.ofFn_succ, sameValues, Bool.and_eq_true,
        Ciphertext.sameValue_iff]
      constructor
      · rintro ⟨hfirst, h⟩
        have htail := hrest.mp h
        funext k
        cases k using Fin.cases with
        | zero => exact hfirst
        | succ k => exact congrFun htail k
      · rintro rfl
        exact ⟨rfl, hrest.mpr rfl⟩

theorem row_injective : Function.Injective (row (G := G) (w := w)) := by
  intro r s h
  funext k
  exact Ciphertext.cipher_injective (congrFun (List.ofFn_injective h) k)

/-- A row that was checked is a family of members. -/
theorem exists_row {xs : Row} (hlength : xs.length = w) (h : xs.validate G = .ok ()) :
    ∃ r : Fin w → Cipher G, xs = row r := by
  obtain ⟨f, rfl⟩ := exists_eq_ofFn hlength
  have hcipher : ∀ k, ∃ c : Cipher G, f k = cipher c := fun k =>
    Ciphertext.exists_cipher (Failure.forM_eq_ok_iff.mp h (f k) (List.mem_ofFn.mpr ⟨k, rfl⟩))
  choose r hr using hcipher
  exact ⟨r, by rw [row, funext hr]⟩

theorem validate_row (r : Fin w → Cipher G) : (row r).validate G = .ok () := by
  refine Failure.forM_eq_ok_iff.mpr fun x hx => ?_
  obtain ⟨k, rfl⟩ := List.mem_ofFn.mp hx
  exact Ciphertext.validate_cipher (r k)

end Row

/-! ## Row sets -/

theorem rowSet_eq (R : Fin n → Fin w → Cipher G) : rowSet R = rowsOf fun i k => cipher (R i k) :=
  rfl

theorem rowWidth_rowSet (hw : 0 < w) (R : Fin (n + 1) → Fin w → Cipher G) :
    rowWidth (rowSet R) = .ok w :=
  rowWidth_rowsOf hw _

theorem validate_of_mem_rowSet (R : Fin n → Fin w → Cipher G) :
    ∀ r ∈ rowSet R, r.validate G = .ok () := by
  intro r hr
  obtain ⟨i, rfl⟩ := List.mem_ofFn.mp hr
  exact Row.validate_row (R i)

theorem getElem?_rowSet (R : Fin n → Fin w → Cipher G) (i : Fin n) :
    (rowSet R)[i.val]? = some (row (R i)) :=
  getElem?_ofFn (fun i => row (R i)) i

theorem rowSet_injective : Function.Injective (rowSet (G := G) (n := n) (w := w)) := by
  intro R S h
  funext i
  exact Row.row_injective (congrFun (List.ofFn_injective h) i)

/-- A row set that was checked is a family of rows of members. -/
theorem exists_rowSet {rows : List Row} (hcount : rows.length = n)
    (hwidth : ∀ r ∈ rows, r.length = w) (h : ∀ r ∈ rows, r.validate G = .ok ()) :
    ∃ R : Fin n → Fin w → Cipher G, rows = rowSet R := by
  obtain ⟨f, rfl⟩ := exists_eq_ofFn hcount
  have hrow : ∀ i, ∃ r : Fin w → Cipher G, f i = row r := by
    intro i
    have hi : f i ∈ List.ofFn f := List.mem_ofFn.mpr ⟨i, rfl⟩
    exact Row.exists_row (hwidth _ hi) (h _ hi)
  choose R hR using hrow
  exact ⟨R, by rw [rowSet, funext hR]⟩

/-- A row set that has a width has at least one row. -/
theorem exists_rowSet_of_rowWidth {rows : List Row} (hwidth : rowWidth rows = .ok w)
    (h : ∀ r ∈ rows, r.validate G = .ok ()) :
    ∃ (n : Nat) (R : Fin (n + 1) → Fin w → Cipher G), 0 < w ∧ rows = rowSet R := by
  obtain ⟨n, R, hw, rfl⟩ := exists_rowsOf_of_rowWidth hwidth
  obtain ⟨S, hS⟩ := exists_rowSet (length_rowsOf R) (length_of_mem_rowsOf R) h
  exact ⟨n, S, hw, hS⟩

/-! ## A small row set -/

/-- Two equal rows of one ciphertext over the 512-bit group. -/
def testRows : List Row :=
  let x : Ciphertext := { pad := Group.test.generator, data := Group.test.generator }
  [[x], [x]]

theorem validate_testRows : ∀ r ∈ testRows, r.validate Group.test = .ok () :=
  validate_of_mem_rowSet fun (_ : Fin 2) (_ : Fin 1) => zeroBase (Member.generator Group.test)

theorem length_of_mem_testRows : ∀ r ∈ testRows, r.length = 1 := by
  simp [testRows]

end VerifiableMix
