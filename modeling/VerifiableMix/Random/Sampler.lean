import VerifiableMix.Random.ByteSource
import VerifiableMix.Scalar.Matrix

/-!
# Drawing random values

A `Sampler` draws from a byte source and may fail; what it drew before failing
stays drawn.

Two draws reject and try again: a nonzero scalar, and a number below a bound.
They give up after `attemptLimit` attempts, which keeps them total; a source of
random bytes does not get there.

Uniform numbers below a bound come from a 64-bit word by a widening product:
the high half of `word * bound` is taken when the low half lies in the zone in
which every number is hit equally often.
-/

namespace VerifiableMix

/-- A computation that draws from a byte source. -/
abbrev Sampler := ExceptT Error (StateM ByteSource)

namespace Sampler

variable {α : Type}

/-- Draws `n` bytes. -/
def bytes (n : Nat) : Sampler Bytes :=
  ExceptT.lift fun source => source.take n

/-- The number of attempts after which a rejecting draw gives up. -/
def attemptLimit : Nat := UInt32.size

/-- Draws until a value is accepted, at most the given number of times. -/
def firstAccepted (draw : Sampler (Option α)) : Nat → Sampler α
  | 0 => throw .samplingExhausted
  | attempts + 1 => do
    match ← draw with
    | some value => return value
    | none => firstAccepted draw attempts

/-! ## Scalars -/

/-- The number of bytes drawn per scalar; the 128 bits beyond the width of the
order make the residue close to uniform. -/
def scalarDrawWidth : Nat := 48

/-- Draws a scalar. -/
def scalar : Sampler Scalar := do
  return Scalar.ofBytesWide (← bytes scalarDrawWidth)

/-- Draws a scalar that is not zero. -/
def nonzeroScalar : Sampler Scalar :=
  firstAccepted
    (do let x ← scalar
        return if x = 0 then none else some x)
    attemptLimit

/-- Draws `n` scalars, in order. -/
def scalarArray : (n : Nat) → Sampler (Vector Scalar n)
  | 0 => return #v[]
  | n + 1 => do
    let front ← scalarArray n
    return front.push (← scalar)

/-- Draws a vector of `n` scalars, in order. -/
def scalars (n : Nat) : Sampler ScalarVector := do
  return (← scalarArray n).toList

/-- Draws a matrix of scalars, row by row. -/
def matrix (rows cols : Nat) : Sampler ScalarMatrix := do
  return { rows, cols, entries := ← scalarArray (rows * cols) }

/-! ## Numbers below a bound -/

/-- Draws a 64-bit word, least significant byte first. -/
def word : Sampler Nat := do
  return Bytes.toNatLE (← bytes 8)

/-- The largest low half that is accepted: the bound shifted to the top of the
word, less one. -/
def acceptanceZone (bound : Nat) : Nat :=
  bound <<< (63 - bound.log2) - 1

/-- The number that a word stands for, if its low half lies in the zone. -/
def scaleWord? (bound word : Nat) : Option Nat :=
  let product := word * bound
  if product % UInt64.size ≤ acceptanceZone bound then some (product / UInt64.size) else none

/-- Draws a word and scales it. -/
def scaledWord (bound : Nat) : Sampler (Option Nat) := do
  return scaleWord? bound (← word)

/-- Draws a number below a positive bound of at most 64 bits. -/
def below (bound : Nat) : Sampler Nat :=
  firstAccepted (scaledWord bound) attemptLimit

end Sampler

end VerifiableMix
