import VerifiableMix.Proof.Binary

/-!
# Row sets on file

A row set is kept with the key it is encrypted under, so that the output of
one mix is the input of the next.  What is read from a file is checked before
use: key and rows must be members of the group.
-/

namespace VerifiableMix

/-- Rows and the key they are encrypted under. -/
structure RowSet where
  publicKey : PublicKey
  rows : List Row
deriving DecidableEq, Repr

namespace RowSet

/-- The binary form of a row set. -/
def toBytes (set : RowSet) : Bytes :=
  Binary.putElement set.publicKey.key ++ Binary.putList Binary.putRow set.rows

/-- Reads a row set. -/
def getRowSet : Binary.Reader RowSet := do
  let key ← Binary.getElement
  let rows ← Binary.getList Binary.getRow
  return { publicKey := ⟨key⟩, rows }

/-- The row set at the front of a byte string, unchecked. -/
def ofBytes? (bytes : Bytes) : Option RowSet :=
  Binary.decode getRowSet bytes

/-- Fails unless key and rows are members. -/
def validate (G : Group) (set : RowSet) : Except Error Unit := do
  G.checkElement set.publicKey.key
  set.rows.forM (Row.validate G)

end RowSet

end VerifiableMix
