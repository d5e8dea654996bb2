import VerifiableMix.Hash.Shake

/-!
# A source of random bytes

A source first gives the bytes of a tape and then, without end, the SHAKE256
output for a seed.  It is a value: taking bytes gives them together with the
source that remains, so every random choice is a function of the source.
-/

namespace VerifiableMix

/-- Bytes at hand, and the output state that the further bytes come from. -/
structure ByteSource where
  pending : Bytes
  state : Vector UInt8 200

namespace ByteSource

/-- The source of a tape followed by the output for a seed. -/
def ofTape (tape seed : Bytes) : ByteSource :=
  { pending := tape, state := Shake.absorb seed }

/-- The next `n` bytes, and the source after them. -/
def take (source : ByteSource) (n : Nat) : Bytes × ByteSource :=
  let missing := n - source.pending.length
  let (further, state) := Shake.blocks (Shake.blockCount missing) source.state
  let available := source.pending ++ further
  (available.take n, { pending := available.drop n, state })

end ByteSource

end VerifiableMix
