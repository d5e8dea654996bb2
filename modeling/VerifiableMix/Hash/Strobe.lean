import VerifiableMix.Hash.Keccak

/-!
# A duplex object for transcripts

The STROBE construction at security level 128, in the part that transcripts
need: absorbing public data and metadata, and drawing pseudorandom bytes.

The state is 200 bytes, of which the first 166 are read and written in turn.
Each operation first absorbs a header of two bytes: where the previous
operation began, and the flags of this one.  An operation that draws bytes
begins on a fresh block.

On top of it a transcript frames every message by its label and its length as
four bytes, least significant first.
-/

namespace VerifiableMix.Strobe

open Keccak

/-- The number of bytes between two permutations. -/
def rate : Nat := 166

/-- State of the duplex object. -/
structure Duplex where
  bytes : Vector UInt8 200
  position : Nat
  operationStart : Nat

/-- Ends the current block. -/
def Duplex.endBlock (d : Duplex) : Duplex :=
  let marked := addByte d.bytes d.position (UInt8.ofNat d.operationStart)
  let marked := addByte (addByte marked (d.position + 1) 0x04) (rate + 1) 0x80
  { bytes := permuteBytes marked, position := 0, operationStart := 0 }

/-- Ends the block when it is full. -/
def Duplex.step (d : Duplex) : Duplex :=
  if d.position = rate then d.endBlock else d

/-- Absorbs bytes into the current operation. -/
def Duplex.absorb (d : Duplex) : Bytes → Duplex
  | [] => d
  | b :: rest =>
    { d with bytes := addByte d.bytes d.position b, position := d.position + 1 }.step.absorb rest

/-- Draws bytes; every byte drawn is erased from the state. -/
def Duplex.squeeze (d : Duplex) : Nat → Bytes × Duplex
  | 0 => ([], d)
  | n + 1 =>
    let b := d.bytes.getD d.position 0
    let next : Duplex :=
      { d with bytes := addByte d.bytes d.position b, position := d.position + 1 }
    let (rest, last) := next.step.squeeze n
    (b :: rest, last)

/-- The flags that distinguish the operations. -/
inductive Operation where
  | metadata
  | data
  | output

/-- The flag byte of an operation. -/
def Operation.flags : Operation → UInt8
  | metadata => 0x12
  | data => 0x02
  | output => 0x07

/-- Begins an operation. -/
def Duplex.begin (d : Duplex) (operation : Operation) : Duplex :=
  let header : Bytes := [UInt8.ofNat d.operationStart, operation.flags]
  let started := { d with operationStart := d.position + 1 }.absorb header
  match operation with
  | .output => if started.position = 0 then started else started.endBlock
  | _ => started

/-- Absorbs metadata in one operation, given in two parts. -/
def Duplex.metadata (d : Duplex) (first second : Bytes) : Duplex :=
  ((d.begin .metadata).absorb first).absorb second

/-- Absorbs public data. -/
def Duplex.data (d : Duplex) (bytes : Bytes) : Duplex :=
  (d.begin .data).absorb bytes

/-- Draws pseudorandom bytes. -/
def Duplex.output (d : Duplex) (n : Nat) : Bytes × Duplex :=
  (d.begin .output).squeeze n

/-- The object for a protocol, before any message. -/
def Duplex.start (protocol : Bytes) : Duplex :=
  let header : Bytes := [1, UInt8.ofNat (rate + 2), 1, 0, 1, 96] ++ Bytes.ofText "STROBEv1.0.2"
  let bytes := permuteBytes (addBytes (Vector.replicate 200 0) 0 header)
  ({ bytes, position := 0, operationStart := 0 } : Duplex).metadata protocol []

/-! ## Framed messages -/

/-- Absorbs a message under a label. -/
def Duplex.message (d : Duplex) (label content : Bytes) : Duplex :=
  (d.metadata label (Bytes.ofNatLE 4 content.length)).data content

/-- Draws `n` bytes under a label. -/
def Duplex.challenge (d : Duplex) (label : Bytes) (n : Nat) : Bytes × Duplex :=
  (d.metadata label (Bytes.ofNatLE 4 n)).output n

/-- A transcript for an application, named by its label. -/
def Duplex.transcript (label : Bytes) : Duplex :=
  (Duplex.start (Bytes.ofText "Merlin v1.0")).message (Bytes.ofText "dom-sep") label

end VerifiableMix.Strobe
