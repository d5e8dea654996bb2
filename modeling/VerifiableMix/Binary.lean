import VerifiableMix.Bytes
import VerifiableMix.Group

/-!
# The binary form

Parts are written one after the other without any separator.  A text is its
length as eight bytes, least significant first, and its UTF-8 bytes; a list is
its number of items in the same form, and the items.  Scalars and elements are
the texts of their hexadecimal digits.

A reader takes bytes from the front and leaves the rest, so what follows a
value never matters.
-/

namespace VerifiableMix.Binary

/-! ## Writing -/

/-- A length. -/
def putLength (n : Nat) : Bytes :=
  Bytes.ofNatLE 8 n

/-- A text. -/
def putText (text : String) : Bytes :=
  let bytes := Bytes.ofText text
  putLength bytes.length ++ bytes

variable {α : Type}

/-- A list. -/
def putList (put : α → Bytes) (items : List α) : Bytes :=
  putLength items.length ++ items.flatMap put

/-- A scalar. -/
def putScalar (x : Scalar) : Bytes :=
  putText x.toHex

/-- An element. -/
def putElement (x : Element) : Bytes :=
  putText x.toHex

/-! ## Reading -/

/-- A reader of a value from the front of a byte string. -/
abbrev Reader := StateT Bytes Option

/-- Splits off exactly `n` bytes. -/
def splitExactly : Nat → Bytes → Option (Bytes × Bytes)
  | 0, rest => some ([], rest)
  | _ + 1, [] => none
  | n + 1, b :: rest => (splitExactly n rest).map fun (taken, left) => (b :: taken, left)

/-- Reads `n` bytes. -/
def getBytes (n : Nat) : Reader Bytes :=
  fun bytes => splitExactly n bytes

/-- Reads a length. -/
def getLength : Reader Nat := do
  return Bytes.toNatLE (← getBytes 8)

/-- Reads a text. -/
def getText : Reader String := do
  let n ← getLength
  let bytes ← getBytes n
  StateT.lift (Bytes.toText? bytes)

/-- Reads `n` items. -/
def getItems (get : Reader α) : Nat → Reader (List α)
  | 0 => return []
  | n + 1 => do
    let item ← get
    let rest ← getItems get n
    return item :: rest

/-- Reads a list. -/
def getList (get : Reader α) : Reader (List α) := do
  let n ← getLength
  getItems get n

/-- Reads a scalar. -/
def getScalar : Reader Scalar := do
  let text ← getText
  StateT.lift (Scalar.ofHex text).toOption

/-- Reads an element. -/
def getElement : Reader Element := do
  let text ← getText
  StateT.lift (Element.ofHex text).toOption

/-- The value at the front of a byte string. -/
def decode (get : Reader α) (bytes : Bytes) : Option α :=
  (get.run bytes).map (·.1)

end VerifiableMix.Binary
