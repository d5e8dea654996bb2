import Mathlib.Algebra.Group.Nat.Defs
import VerifiableMix.Bytes

/-!
# Byte strings and powers of the base

How wide a number is, in bits and in bytes, and what a fixed-width form keeps
of it.

## Main results

* `toNatLE_ofNatLE`, `toNatBE_ofNatBE` — a fixed-width form is read back up to
  the bytes that were cut off.
* `ofNatBE_inj`, `shortest_injective` — a number is determined by its bytes.
* `toNatLE_lt`, `toNatBE_lt` — a byte string has a value below the power of 256
  that its width gives.
* `bitLength_le_iff`, `byteLength_le_iff` — a number fits a width exactly when
  it is below the power of the base.
* `padded_eq_append` — zero bytes in front of the shortest form fill it up.
* `padded_eq_ofNatBE` — a number that fits the width is filled up to exactly it.
* `ofText_injective`, `toText?_eq_some_iff` — a text is determined by its bytes, and is read
  back from them.
-/

namespace VerifiableMix.Bytes

/-! ## Fixed-width forms -/

/-- A little-endian form is read back up to the bytes that were cut off. -/
theorem toNatLE_ofNatLE (width n : Nat) : toNatLE (ofNatLE width n) = n % 256 ^ width := by
  induction width generalizing n with
  | zero => simp [ofNatLE, toNatLE, Nat.mod_one]
  | succ width ih =>
    rw [ofNatLE, toNatLE, ih, Nat.pow_succ, Nat.mul_comm (256 ^ width), Nat.mod_mul]
    simp

/-- Every byte counts for a factor of 256. -/
theorem toNatLE_lt (bytes : Bytes) : toNatLE bytes < 256 ^ bytes.length := by
  induction bytes with
  | nil => simp [toNatLE]
  | cons b rest ih =>
    have hb := b.toNat_lt
    rw [toNatLE, List.length_cons, Nat.pow_succ]
    omega

/-- A big-endian form is read back up to the bytes that were cut off. -/
theorem toNatBE_ofNatBE (width n : Nat) : toNatBE (ofNatBE width n) = n % 256 ^ width := by
  rw [toNatBE_eq_toNatLE_reverse, ofNatBE, List.reverse_reverse, toNatLE_ofNatLE]

/-- A number that fits its width is determined by its bytes. -/
theorem ofNatBE_inj {width m n : Nat} (hm : m < 256 ^ width) (hn : n < 256 ^ width)
    (h : ofNatBE width m = ofNatBE width n) : m = n := by
  have hvalue := congrArg toNatBE h
  rwa [toNatBE_ofNatBE, toNatBE_ofNatBE, Nat.mod_eq_of_lt hm, Nat.mod_eq_of_lt hn] at hvalue

/-- Every byte counts for a factor of 256. -/
theorem toNatBE_lt (bytes : Bytes) : toNatBE bytes < 256 ^ bytes.length := by
  rw [toNatBE_eq_toNatLE_reverse, ← List.length_reverse]
  exact toNatLE_lt bytes.reverse

/-! ## Width -/

/-- A number has no bit at its bit length or above. -/
theorem lt_two_pow_bitLength (n : Nat) : n < 2 ^ bitLength n := by
  unfold bitLength
  split
  · omega
  · exact Nat.lt_log2_self

/-- The bit length is the least number of bits that hold the number. -/
theorem bitLength_le_iff {n bits : Nat} : bitLength n ≤ bits ↔ n < 2 ^ bits := by
  unfold bitLength
  split
  · subst n
    exact ⟨fun _ => Nat.two_pow_pos bits, fun _ => Nat.zero_le bits⟩
  · rename_i h; exact Nat.log2_lt h

/-- The byte length is the least number of bytes that hold the number. -/
theorem byteLength_le_iff {n width : Nat} : byteLength n ≤ width ↔ n < 256 ^ width := by
  rw [show (256 : Nat) = 2 ^ 8 from rfl, ← Nat.pow_mul, ← bitLength_le_iff, byteLength]
  omega

/-- The byte length is exact: with one byte less the number would not fit. -/
theorem pow_byteLength_pred_le {n : Nat} (hn : n ≠ 0) : 256 ^ (byteLength n - 1) ≤ n := by
  have hpos : 0 < byteLength n := by
    apply Nat.pos_of_ne_zero
    intro hzero
    have hlt : n < 256 ^ 0 := byteLength_le_iff.mp (Nat.le_of_eq hzero)
    omega
  have hshort : ¬ byteLength n ≤ byteLength n - 1 := by omega
  exact Nat.not_lt.mp (mt byteLength_le_iff.mpr hshort)

/-! ## Filled-up forms -/

/-- A number that is filled up to a width is read back. -/
theorem toNatBE_padded (width n : Nat) : toNatBE (padded width n) = n := by
  have hfits : byteLength n ≤ max width (max 1 (byteLength n)) := by omega
  rw [padded, toNatBE_ofNatBE, Nat.mod_eq_of_lt (byteLength_le_iff.mp hfits)]

/-- The shortest form is the one that is not filled up. -/
theorem padded_zero (n : Nat) : padded 0 n = shortest n := by
  rw [padded, shortest, Nat.zero_max]

/-- A number is determined by its shortest form. -/
theorem shortest_injective : Function.Injective shortest := by
  intro m n h
  rw [← toNatBE_padded 0 m, padded_zero, h, ← padded_zero, toNatBE_padded]

/-- Zero bytes in front do not count. -/
theorem toNatBE_replicate_append (count : Nat) (bytes : Bytes) :
    toNatBE (List.replicate count 0 ++ bytes) = toNatBE bytes := by
  induction count with
  | zero => rfl
  | succ count ih => exact ih

/-- Byte strings of one length are equal when their values are. -/
theorem eq_of_toNatBE_eq {xs ys : Bytes} (hlength : xs.length = ys.length)
    (hvalue : toNatBE xs = toNatBE ys) : xs = ys := by
  rw [← ofNatBE_toNatBE xs, hlength, hvalue, ofNatBE_toNatBE]

/-- Zero bytes in front of the shortest form fill it up. -/
theorem padded_eq_append (width n : Nat) :
    padded width n = List.replicate (width - (shortest n).length) 0 ++ shortest n := by
  apply eq_of_toNatBE_eq
  · rw [List.length_append, List.length_replicate, padded, shortest, length_ofNatBE, length_ofNatBE]
    omega
  · rw [toNatBE_replicate_append, ← padded_zero, toNatBE_padded, toNatBE_padded]

/-- The shortest form of a number that fits a width is no longer than it. -/
theorem length_shortest_le {width n : Nat} (hpos : 0 < width) (h : n < 256 ^ width) :
    (shortest n).length ≤ width := by
  have hlength := byteLength_le_iff.mpr h
  rw [shortest, length_ofNatBE]
  omega

/-- A number that fits the width is filled up to exactly it. -/
theorem padded_eq_ofNatBE {width n : Nat} (hpos : 0 < width) (h : n < 256 ^ width) :
    padded width n = ofNatBE width n := by
  have hlength := byteLength_le_iff.mpr h
  have hwidth : max width (max 1 (byteLength n)) = width := by omega
  rw [padded, hwidth]

/-! ## Texts -/

/-- A text is determined by its bytes. -/
theorem ofText_injective : Function.Injective ofText := by
  intro x y h
  have hdata : x.toUTF8.data = y.toUTF8.data := Array.toList_inj.mp h
  exact String.toByteArray_inj.mp (ByteArray.ext hdata)

/-- The text of a byte string is the one with these bytes. -/
theorem toText?_eq_some_iff {bytes : Bytes} {text : String} :
    toText? bytes = some text ↔ bytes = ofText text := by
  rw [toText?, String.fromUTF8?]
  constructor
  · intro h
    split at h
    · obtain rfl := Option.some.inj h
      rfl
    · cases h
  · rintro rfl
    have hvalid : (⟨(ofText text).toArray⟩ : ByteArray) = text.toByteArray := rfl
    rw [dif_pos (hvalid ▸ text.isValidUTF8)]
    rfl

end VerifiableMix.Bytes
