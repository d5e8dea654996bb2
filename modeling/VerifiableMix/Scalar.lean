import VerifiableMix.Error
import VerifiableMix.Bytes.Hex

/-!
# Scalars

A scalar is a residue modulo `q = 2 ^ 256 - 189`, the order that all groups of
the mix share.  The bound is part of the type, so every operation returns a
reduced scalar and no subtraction can fall below zero.

A scalar is written as 32 bytes, most significant byte first, and as text by
the 64 hexadecimal digits of those bytes.  Reading is strict: another width
and a value that is not below `q` are refused.
-/

namespace VerifiableMix

/-- The order `q` of every group. -/
def Scalar.order : Nat :=
  0xFFFFFFFFFFFFFFFFFFFFFFFFFFFFFFFFFFFFFFFFFFFFFFFFFFFFFFFFFFFFFF43

/-- A residue modulo `q`. -/
structure Scalar where
  val : Nat
  isLt : val < Scalar.order
deriving DecidableEq, Repr

/-- Why a text does not stand for a scalar or an element. -/
inductive TextFault where
  | hex (fault : HexFault)
  | value (error : Error)
deriving DecidableEq, Repr

/-- The wording of a text fault. -/
def TextFault.message : TextFault → String
  | hex fault => fault.message
  | value error => error.message

namespace Scalar

theorem order_pos : 0 < order := by decide

@[ext] theorem ext {x y : Scalar} (h : x.val = y.val) : x = y := by
  cases x; cases y; simp_all

/-- The residue of a number. -/
def ofNat (n : Nat) : Scalar :=
  ⟨n % order, Nat.mod_lt _ order_pos⟩

@[simp] theorem val_ofNat (n : Nat) : (ofNat n).val = n % order := rfl

@[simp] theorem ofNat_val (x : Scalar) : ofNat x.val = x :=
  ext (Nat.mod_eq_of_lt x.isLt)

/-! ## Arithmetic -/

instance : Zero Scalar := ⟨⟨0, order_pos⟩⟩
instance : One Scalar := ⟨⟨1, by decide⟩⟩
instance : Add Scalar := ⟨fun x y => ofNat (x.val + y.val)⟩
instance : Sub Scalar := ⟨fun x y => ofNat (x.val + order - y.val)⟩
instance : Mul Scalar := ⟨fun x y => ofNat (x.val * y.val)⟩
instance : Neg Scalar := ⟨fun x => ofNat (order - x.val)⟩
instance : Inhabited Scalar := ⟨0⟩

@[simp] theorem val_zero : (0 : Scalar).val = 0 := rfl
@[simp] theorem val_one : (1 : Scalar).val = 1 := rfl
theorem val_add (x y : Scalar) : (x + y).val = (x.val + y.val) % order := rfl
theorem val_sub (x y : Scalar) : (x - y).val = (x.val + order - y.val) % order := rfl
theorem val_mul (x y : Scalar) : (x * y).val = x.val * y.val % order := rfl
theorem val_neg (x : Scalar) : (-x).val = (order - x.val) % order := rfl

/-! ## Bytes and text -/

/-- The number of bytes of a scalar's encoding. -/
def byteWidth : Nat := 32

/-- The residue of a byte string of any length. -/
def ofBytesWide (bytes : Bytes) : Scalar :=
  ofNat (Bytes.toNatBE bytes)

/-- The encoding of a scalar. -/
def toBytes (x : Scalar) : Bytes :=
  Bytes.ofNatBE byteWidth x.val

/-- The scalar that a byte string encodes. -/
def ofBytes (bytes : Bytes) : Except Error Scalar :=
  if bytes.length = byteWidth then
    if h : Bytes.toNatBE bytes < order then .ok ⟨Bytes.toNatBE bytes, h⟩
    else .error .scalarOutOfRange
  else .error (.invalidEncoding byteWidth bytes.length)

/-- The text of a scalar: 64 lower-case hexadecimal digits. -/
def toHex (x : Scalar) : String :=
  Hex.encode x.toBytes

/-- The scalar that a text stands for. -/
def ofHex (text : String) : Except TextFault Scalar :=
  match Hex.decode text with
  | .error fault => .error (.hex fault)
  | .ok bytes =>
    match ofBytes bytes with
    | .error error => .error (.value error)
    | .ok x => .ok x

/-- The form of a scalar in diagnostics. -/
def describe (x : Scalar) : String :=
  "ElementModQ(" ++ x.toHex ++ ")"

end Scalar

end VerifiableMix
