/-!
# Byte strings and numbers

Byte strings are lists of bytes.  A number is written in a fixed width, most
significant byte first (`ofNatBE`) or last (`ofNatLE`); a fixed-width writer
keeps the low bytes of a number that does not fit.

The shortest big-endian form of a number has `byteLength` bytes, except that
zero is written as one zero byte.

## Main results

* `length_ofNatBE` — a fixed-width form has exactly its width.
* `ofNatBE_toNatBE` — every byte string is the fixed-width form of its value.
-/

namespace VerifiableMix

/-- A byte string. -/
abbrev Bytes := List UInt8

namespace Bytes

/-! ## Little-endian -/

/-- The value of a byte string whose first byte is the least significant. -/
def toNatLE : Bytes → Nat
  | [] => 0
  | b :: rest => b.toNat + 256 * toNatLE rest

/-- The `width` low bytes of a number, least significant first. -/
def ofNatLE : Nat → Nat → Bytes
  | 0, _ => []
  | width + 1, n => UInt8.ofNat n :: ofNatLE width (n / 256)

@[simp] theorem length_ofNatLE (width n : Nat) : (ofNatLE width n).length = width := by
  induction width generalizing n with
  | zero => rfl
  | succ width ih => simp [ofNatLE, ih]

theorem ofNatLE_toNatLE (bytes : Bytes) : ofNatLE bytes.length (toNatLE bytes) = bytes := by
  induction bytes with
  | nil => rfl
  | cons b rest ih =>
    have hb := b.toNat_lt
    have hdiv : (b.toNat + 256 * toNatLE rest) / 256 = toNatLE rest := by omega
    have hlow : UInt8.ofNat (b.toNat + 256 * toNatLE rest) = b := by
      apply UInt8.toNat_inj.mp
      rw [UInt8.toNat_ofNat']
      omega
    rw [toNatLE, List.length_cons, ofNatLE, hdiv, ih, hlow]

/-! ## Big-endian -/

/-- The value of a byte string whose first byte is the most significant. -/
def toNatBE (bytes : Bytes) : Nat :=
  bytes.foldl (fun value b => 256 * value + b.toNat) 0

/-- The `width` low bytes of a number, most significant first. -/
def ofNatBE (width n : Nat) : Bytes :=
  (ofNatLE width n).reverse

theorem toNatBE_eq_toNatLE_reverse (bytes : Bytes) : toNatBE bytes = toNatLE bytes.reverse := by
  have general : ∀ reversed : Bytes,
      reversed.foldr (fun b value => 256 * value + b.toNat) 0 = toNatLE reversed := by
    intro reversed
    induction reversed with
    | nil => rfl
    | cons b rest ih => rw [List.foldr_cons, ih, toNatLE]; omega
  rw [toNatBE, List.foldl_eq_foldr_reverse, general]

@[simp] theorem length_ofNatBE (width n : Nat) : (ofNatBE width n).length = width := by
  simp [ofNatBE]

/-- Every byte string is the fixed-width form of its value. -/
theorem ofNatBE_toNatBE (bytes : Bytes) : ofNatBE bytes.length (toNatBE bytes) = bytes := by
  have h := ofNatLE_toNatLE bytes.reverse
  rw [List.length_reverse] at h
  rw [toNatBE_eq_toNatLE_reverse, ofNatBE, h, List.reverse_reverse]

/-! ## Shortest forms -/

/-- The number of bits of a number; zero has none. -/
def bitLength (n : Nat) : Nat :=
  if n = 0 then 0 else n.log2 + 1

/-- The number of bytes that hold a number; zero needs none. -/
def byteLength (n : Nat) : Nat :=
  (bitLength n + 7) / 8

/-- The shortest big-endian form; zero is one zero byte. -/
def shortest (n : Nat) : Bytes :=
  ofNatBE (max 1 (byteLength n)) n

/-- The big-endian form filled up with zero bytes to at least `width` bytes;
a number that needs more bytes keeps them all. -/
def padded (width n : Nat) : Bytes :=
  ofNatBE (max width (max 1 (byteLength n))) n

/-- The UTF-8 bytes of a text. -/
def ofText (text : String) : Bytes :=
  text.toUTF8.data.toList

/-- The text whose UTF-8 form the bytes are, if there is one. -/
def toText? (bytes : Bytes) : Option String :=
  String.fromUTF8? ⟨bytes.toArray⟩

end Bytes

end VerifiableMix
