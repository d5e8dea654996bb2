import VerifiableMix.Hash.Keccak

/-!
# The extendable-output function SHAKE256

Input is absorbed in blocks of 136 bytes; after the padding the output is read
in blocks of the same size, one application of the permutation apart.  Output
of any length is an initial part of one unending stream.
-/

namespace VerifiableMix.Shake

open Keccak

/-- The number of bytes absorbed or squeezed between two permutations. -/
def rate : Nat := 136

/-- Absorbs the full blocks at the front; gives the state and what is left. -/
def absorbBlocks (state : Vector UInt8 200) (input : Bytes) : Vector UInt8 200 × Bytes :=
  if rate ≤ input.length then
    absorbBlocks (permuteBytes (addBytes state 0 (input.take rate))) (input.drop rate)
  else (state, input)
termination_by input.length
decreasing_by
  rename_i h
  have hlength : 136 ≤ input.length := h
  rw [List.length_drop, rate]
  omega

/-- The state from which the output of an input is read: everything absorbed,
the last block padded with `1111` and the rule `10*1`. -/
def absorb (input : Bytes) : Vector UInt8 200 :=
  let (state, rest) := absorbBlocks (Vector.replicate 200 0) input
  let padded := addByte (addByte (addBytes state 0 rest) rest.length 0x1f) (rate - 1) 0x80
  permuteBytes padded

/-- The output block that a state holds. -/
def block (state : Vector UInt8 200) : Bytes :=
  state.toList.take rate

/-- The next `count` output blocks, and the state after them. -/
def blocks : Nat → Vector UInt8 200 → Bytes × Vector UInt8 200
  | 0, state => ([], state)
  | count + 1, state =>
    let (rest, last) := blocks count (permuteBytes state)
    (block state ++ rest, last)

/-- The number of blocks that hold `n` bytes. -/
def blockCount (n : Nat) : Nat :=
  (n + (rate - 1)) / rate

/-- The first `n` bytes of the output for an input. -/
def shake256 (input : Bytes) (n : Nat) : Bytes :=
  (blocks (blockCount n) (absorb input)).1.take n

end VerifiableMix.Shake
