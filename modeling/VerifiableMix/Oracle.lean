import VerifiableMix.Hash.Shake
import VerifiableMix.Hash.Strobe

/-!
# Hash functions as oracles

Generators come from a hash function with output of any length, and challenges
from a transcript that absorbs labelled messages and gives labelled output.  An
`Oracle` is any such pair.  The mix is defined for every oracle, and nothing it
computes depends on how the oracle works; `Oracle.standard` is the pair of
SHAKE256 and the STROBE transcript.
-/

namespace VerifiableMix

/-- A hash function with output of any length, and a transcript. -/
structure Oracle where
  /-- The first bytes of the output for an input. -/
  expand : Bytes → Nat → Bytes
  /-- The states of a transcript. -/
  State : Type
  /-- A transcript for the application with a label. -/
  start : Bytes → State
  /-- The transcript after a message under a label. -/
  absorb : State → Bytes → Bytes → State
  /-- Output of the given length under a label, and the transcript after it. -/
  squeeze : State → Bytes → Nat → Bytes × State

/-- SHAKE256 and the STROBE transcript. -/
def Oracle.standard : Oracle :=
  { expand := Shake.shake256
    State := Strobe.Duplex
    start := Strobe.Duplex.transcript
    absorb := Strobe.Duplex.message
    squeeze := Strobe.Duplex.challenge }

end VerifiableMix
