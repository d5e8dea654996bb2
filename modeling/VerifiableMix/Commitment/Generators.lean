import VerifiableMix.Oracle
import VerifiableMix.Group.Vector

/-!
# Independent generators

The generators of a mix are derived from its name, so anyone can derive them
again and nobody knows how one is a power of another.  Generator `index` is
made from hash output: the output is reduced modulo `p` and raised to the
cofactor, which takes it into the subgroup.  An attempt that lands on 0 or 1 is
followed by the next.

The hash input frames every variable part by its length, so that no two
different tuples of parts have the same input.

Index 0 gives the base of commitment chains; indices 1, 2, … give one generator
per row.
-/

namespace VerifiableMix

/-- The generators of a mix. -/
structure Generators where
  /-- Base of the commitment chain. -/
  h0 : Element
  /-- One generator per row. -/
  rows : ElementVector
deriving DecidableEq, Repr

namespace Generators

/-- The purpose that all hash inputs begin with. -/
def purpose : String := "mixnet-shuffle/generators/v1"

/-- A byte string behind its length as eight bytes. -/
def framed (bytes : Bytes) : Bytes :=
  Bytes.ofNatBE 8 bytes.length ++ bytes

/-- The hash input for one attempt at a generator of a group with modulus `p`. -/
def hashInput (mixName : String) (seed : Bytes) (p index attempt : Nat) : Bytes :=
  Bytes.ofText purpose ++ framed (Bytes.ofText mixName) ++ framed seed ++
    framed (Bytes.shortest p) ++ Bytes.ofNatBE 8 index ++ Bytes.ofNatBE 4 attempt

/-- The number of bytes of hash output beyond the width of the modulus. -/
def extraBytes : Nat := 16

/-- The number that one attempt gives. -/
def candidate (O : Oracle) (G : Group) (mixName : String) (seed : Bytes)
    (index attempt : Nat) : Nat :=
  let output := O.expand (hashInput mixName seed G.p index attempt) (G.width + extraBytes)
  powMod (Bytes.toNatBE output % G.p) G.r G.p

/-- The first of `count` candidates from `attempt` on that is neither 0 nor 1. -/
def firstProper (candidate : Nat → Nat) : Nat → Nat → Option Nat
  | 0, _ => none
  | count + 1, attempt =>
    let h := candidate attempt
    if h ≠ 0 ∧ h ≠ 1 then some h else firstProper candidate count (attempt + 1)

/-- The number of values of the attempt counter. -/
def attemptLimit : Nat := UInt32.size

/-- Generator `index` of a mix; a missing seed counts as the empty one. -/
def derive (O : Oracle) (G : Group) (mixName : String) (seed : Option Bytes) (index : Nat) :
    Except Error Element :=
  match firstProper (candidate O G mixName (seed.getD []) index) attemptLimit 0 with
  | some h => .ok (G.element h)
  | none => .error (.generatorNotFound index)

/-- The chain base and `n` row generators of a mix. -/
def deriveAll (O : Oracle) (G : Group) (mixName : String) (seed : Option Bytes) (n : Nat) :
    Except Error Generators := do
  let h0 ← derive O G mixName seed 0
  let rows ← (List.range n).mapM fun i => derive O G mixName seed (i + 1)
  return { h0, rows }

end Generators

end VerifiableMix
