import VerifiableMix.Bytes

/-!
# Hexadecimal text

Byte strings are written as pairs of lower-case digits and read in either
case.  Reading works on the UTF-8 bytes of the text: an odd number of them is
refused before any digit is looked at, and otherwise the first byte that is
no digit is reported with its position.

A refused byte is shown in quotes as the character with that code point, with
the usual escapes for what cannot be printed.
-/

namespace VerifiableMix

/-- Why a text is no hexadecimal form of a byte string. -/
inductive HexFault where
  | oddLength
  | invalidDigit (byte : UInt8) (position : Nat)
deriving DecidableEq, Repr

namespace Hex

/-- The two lower-case digits of a byte. -/
def digits (b : UInt8) : List Char :=
  [Nat.digitChar (b.toNat / 16), Nat.digitChar (b.toNat % 16)]

/-- The lower-case hexadecimal form of a byte string. -/
def encode (bytes : Bytes) : String :=
  String.ofList (bytes.flatMap digits)

/-- The value of a digit of either case, given by its character code. -/
def digitValue? (code : UInt8) : Option Nat :=
  let n := code.toNat
  if 48 ≤ n ∧ n ≤ 57 then some (n - 48)
  else if 65 ≤ n ∧ n ≤ 70 then some (n - 55)
  else if 97 ≤ n ∧ n ≤ 102 then some (n - 87)
  else none

/-- The value of the digit at a position, or the fault it is. -/
def readDigit (position : Nat) (code : UInt8) : Except HexFault Nat :=
  match digitValue? code with
  | some value => .ok value
  | none => .error (.invalidDigit code position)

/-- Reads pairs of digits, the first of which stands at `position`. -/
def readPairs (position : Nat) : List UInt8 → Except HexFault Bytes
  | high :: low :: rest => do
    let h ← readDigit position high
    let l ← readDigit (position + 1) low
    let bytes ← readPairs (position + 2) rest
    return UInt8.ofNat (16 * h + l) :: bytes
  | _ => .ok []

/-- The byte string that a hexadecimal text stands for. -/
def decode (text : String) : Except HexFault Bytes :=
  let codes := Bytes.ofText text
  if codes.length % 2 = 1 then .error .oddLength else readPairs 0 codes

/-! ## Wording of faults -/

/-- A character in single quotes; what cannot be printed is escaped. -/
def quoted (code : UInt8) : String :=
  let n := code.toNat
  let shown :=
    if n = 0 then "\\0"
    else if n = 9 then "\\t"
    else if n = 10 then "\\n"
    else if n = 13 then "\\r"
    else if n = 39 then "\\'"
    else if n = 92 then "\\\\"
    else if n < 32 ∨ (127 ≤ n ∧ n ≤ 160) ∨ n = 173 then
      "\\u\x7b" ++ String.ofList (Nat.toDigits 16 n) ++ "\x7d"
    else String.singleton (Char.ofNat n)
  "'" ++ shown ++ "'"

end Hex

/-- The wording of a hexadecimal fault. -/
def HexFault.message : HexFault → String
  | oddLength => "Odd number of digits"
  | invalidDigit byte position =>
    "Invalid character " ++ Hex.quoted byte ++ " at position " ++ toString position

end VerifiableMix
