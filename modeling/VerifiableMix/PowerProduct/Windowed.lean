import VerifiableMix.PowerProduct.Direct
import VerifiableMix.PowerProduct.Chunks

/-!
# Products of powers, all bases at once

The bases are cut into windows of a few bases each.  For every window a table
holds the product of each subset of its bases.  Then the exponents are scanned
from the top bit down: the accumulator is squared once per bit, and one table
entry per window is multiplied in, the one for the set of bases whose exponents
have that bit.

Entry `mask` of a table belongs to the bases at the set bits of `mask`.  A
table grows by one base at a time: the entries with the new base are those
without it, each times the base.

A batch holds at most `maxBatch` bases, and exponents have at most
`exponentBits` bits.
-/

namespace VerifiableMix.PowerProduct

/-- The number of bases in a window. -/
def windowWidth : Nat := 7

/-- The largest number of bases in one batch. -/
def maxBatch : Nat := 84

/-- The number of bits of an exponent. -/
def exponentBits : Nat := 256

/-- Doubles a table of subset products by one more base. -/
def extendTable (modulus : Nat) (table : Array Nat) (base : Nat) : Array Nat :=
  table ++ table.map fun entry => entry * base % modulus

/-- The products of all subsets of the bases, by the mask of the subset. -/
def subsetProducts (modulus : Nat) (bases : List Nat) : Array Nat :=
  bases.foldl (extendTable modulus) #[1 % modulus]

/-- One table per window. -/
def tables (width modulus : Nat) (bases : List Nat) : List (Array Nat) :=
  (chunks width bases).map (subsetProducts modulus)

/-- The mask of the exponents that have a bit set at the given place. -/
def maskAt (place : Nat) : List Nat → Nat
  | [] => 0
  | e :: rest => (if e.testBit place then 1 else 0) + 2 * maskAt place rest

/-- Multiplies in one entry of every table, picked by the exponents' bits. -/
def multiplyIn (modulus place : Nat) (acc : Nat) (windows : List (Array Nat × List Nat)) : Nat :=
  windows.foldl
    (fun acc (table, exps) => acc * table.getD (maskAt place exps) 1 % modulus) acc

/-- Scans the low `bits` bits of the exponents from the top. -/
def scan (modulus : Nat) (windows : List (Array Nat × List Nat)) : Nat → Nat → Nat
  | 0, acc => acc
  | place + 1, acc =>
    scan modulus windows place (multiplyIn modulus place (acc * acc % modulus) windows)

/-- The product of powers by windows of the given width, over the low `bits`
bits of the exponents. -/
def windowedScan (width modulus bits : Nat) (bases exps : List Nat) : Nat :=
  scan modulus ((tables width modulus bases).zip (chunks width exps)) bits (1 % modulus)

/-- The product of powers of one batch, all bases at once. -/
def windowed (bases exps : List Nat) (modulus : Nat) : Except Error Nat := do
  checkLength .windowedBatch bases.length exps.length
  checkModulus modulus
  if maxBatch < bases.length then throw (.batchTooLarge bases.length maxBatch)
  if exps.any fun e => exponentBits < Bytes.bitLength e then throw .scalarOutOfRange
  return windowedScan windowWidth modulus exponentBits bases exps

/-! ## Cost -/

/-- The number of products that one batch takes: every table is filled and read
once per bit, and the accumulator is squared once per bit. -/
def expectedProducts (batch : Nat) : Nat :=
  let windows := (batch + (windowWidth - 1)) / windowWidth
  windows * (exponentBits + (1 <<< windowWidth)) + exponentBits

/-- The memory of the tables of one batch in units of 1024 bytes. -/
def expectedMemory (batch modulusBytes : Nat) : Nat :=
  (1 <<< windowWidth) * batch * modulusBytes / windowWidth / 1024

end VerifiableMix.PowerProduct
