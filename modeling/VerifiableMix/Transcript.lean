import VerifiableMix.Oracle
import VerifiableMix.Ciphertext.Row

/-!
# Transcripts of a proof

What a proof commits to is written down as a list of entries, each a label and
a message, and the list is absorbed into a transcript of an oracle.  Challenges
are drawn from the transcript as scalars.

Scalars are 32 bytes, elements have the width of the group.  A vector is
preceded by its length and a row by its width, so that lists of different
shape give different entries.
-/

namespace VerifiableMix

/-- A message under a label. -/
structure Entry where
  label : String
  message : Bytes
deriving DecidableEq, Repr

namespace Entry

/-- Separates one use of transcripts from another. -/
def separator (domain : String) : Entry :=
  { label := "dom-sep", message := Bytes.ofText domain }

/-- A length, as eight bytes. -/
def length (label : String) (n : Nat) : Entry :=
  { label, message := Bytes.ofNatLE 8 n }

/-- A text. -/
def text (label content : String) : Entry :=
  { label, message := Bytes.ofText content }

/-- A scalar. -/
def scalar (label : String) (x : Scalar) : Entry :=
  { label, message := x.toBytes }

/-- An element, at the width of the group. -/
def element (G : Group) (label : String) (x : Element) : Entry :=
  { label, message := G.toBytes x }

/-- A vector of scalars. -/
def scalars (label : String) (xs : ScalarVector) : List Entry :=
  length label xs.length :: xs.map (scalar label)

/-- A vector of elements. -/
def elements (G : Group) (label : String) (xs : ElementVector) : List Entry :=
  length label xs.length :: xs.map (element G label)

/-- A row of ciphertexts. -/
def row (G : Group) (label : String) (xs : Row) : List Entry :=
  length "width" xs.length :: xs.flatMap fun x =>
    [element G label x.pad, element G label x.data]

/-- A row set. -/
def rows (G : Group) (label : String) (rows : List Row) : List Entry :=
  length label rows.length :: rows.flatMap (row G label)

end Entry

namespace Oracle

/-- A transcript for the application with a label. -/
def transcript (O : Oracle) (label : String) : O.State :=
  O.start (Bytes.ofText label)

/-- The transcript after a list of entries. -/
def absorbAll (O : Oracle) (t : O.State) (entries : List Entry) : O.State :=
  entries.foldl (fun t entry => O.absorb t (Bytes.ofText entry.label) entry.message) t

/-- The number of bytes from which a challenge is made. -/
def challengeWidth : Nat := 64

/-- Draws a challenge under a label. -/
def challenge (O : Oracle) (t : O.State) (label : String) : Scalar × O.State :=
  let (bytes, t) := O.squeeze t (Bytes.ofText label) challengeWidth
  (Scalar.ofBytesWide bytes, t)

/-- Draws `n` challenges under one label, one after the other. -/
def challenges (O : Oracle) (t : O.State) (label : String) : Nat → ScalarVector × O.State
  | 0 => ([], t)
  | n + 1 =>
    let (x, t) := O.challenge t label
    let (rest, t) := O.challenges t label n
    (x :: rest, t)

end Oracle

end VerifiableMix
