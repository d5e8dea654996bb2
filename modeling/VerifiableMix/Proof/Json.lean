import VerifiableMix.Proof
import VerifiableMix.Json.Reader
import VerifiableMix.Json.Printer

/-!
# Proofs as JSON

A proof is a record of its name and its two messages.  Scalars and elements
are texts of hexadecimal digits.  Membership is not checked on reading; the
verifier does that.
-/

namespace VerifiableMix

/-! ## Writing -/

/-- A scalar as a document. -/
def Scalar.toDocument (x : Scalar) : Document := .text x.toHex

/-- An element as a document. -/
def Element.toDocument (x : Element) : Document := .text x.toHex

/-- A vector of scalars as a document. -/
def ScalarVector.toDocument (xs : ScalarVector) : Document :=
  .list (xs.map Scalar.toDocument)

/-- A vector of elements as a document. -/
def ElementVector.toDocument (xs : ElementVector) : Document :=
  .list (xs.map Element.toDocument)

/-- A ciphertext as a document. -/
def Ciphertext.toDocument (x : Ciphertext) : Document :=
  .record [("pad", x.pad.toDocument), ("data", x.data.toDocument)]

/-- A row as a document. -/
def Row.toDocument (xs : Row) : Document :=
  .list (xs.map Ciphertext.toDocument)

/-- The first message as a document. -/
def ProofCommitment.toDocument (c : ProofCommitment) : Document :=
  .record
    [("u", c.u.toDocument),
      ("d", c.d.toDocument),
      ("e", c.e.toDocument),
      ("B", c.bridges.toDocument),
      ("A_p", c.maskA.toDocument),
      ("B_p", c.bridgeMasks.toDocument),
      ("C_p", c.maskC.toDocument),
      ("D_p", c.maskD.toDocument),
      ("F_p", c.rowMask.toDocument)]

/-- The second message as a document. -/
def ProofReply.toDocument (k : ProofReply) : Document :=
  .record
    [("k_A", k.kA.toDocument),
      ("k_B", k.kB.toDocument),
      ("k_C", k.kC.toDocument),
      ("k_D", k.kD.toDocument),
      ("k_E", k.kE.toDocument),
      ("k_F", k.kF.toDocument)]

/-- A proof as a document. -/
def ShuffleProof.toDocument (proof : ShuffleProof) : Document :=
  .record
    [("mix_name", .text proof.mixName),
      ("commitment", proof.commitment.toDocument),
      ("reply", proof.reply.toDocument)]

/-- The JSON text of a proof. -/
def ShuffleProof.toJson (proof : ShuffleProof) : String :=
  proof.toDocument.render

/-! ## Reading -/

/-- The scalar that a JSON value stands for. -/
def Scalar.ofJson? (value : Json) : Option Scalar := do
  (Scalar.ofHex (← value.text?)).toOption

/-- The element that a JSON value stands for. -/
def Element.ofJson? (value : Json) : Option Element := do
  (Element.ofHex (← value.text?)).toOption

/-- The vector of scalars that a JSON value stands for. -/
def ScalarVector.ofJson? (value : Json) : Option ScalarVector := do
  (← value.items?).mapM Scalar.ofJson?

/-- The vector of elements that a JSON value stands for. -/
def ElementVector.ofJson? (value : Json) : Option ElementVector := do
  (← value.items?).mapM Element.ofJson?

/-- The ciphertext that a JSON value stands for. -/
def Ciphertext.ofJson? (value : Json) : Option Ciphertext := do
  let [pad, data] ← value.fields? ["pad", "data"] | none
  return { pad := ← Element.ofJson? pad, data := ← Element.ofJson? data }

/-- The row that a JSON value stands for. -/
def Row.ofJson? (value : Json) : Option Row := do
  (← value.items?).mapM Ciphertext.ofJson?

/-- The first message that a JSON value stands for. -/
def ProofCommitment.ofJson? (value : Json) : Option ProofCommitment := do
  let [u, d, e, bridges, maskA, bridgeMasks, maskC, maskD, rowMask] ←
    value.fields? ["u", "d", "e", "B", "A_p", "B_p", "C_p", "D_p", "F_p"] | none
  return {
    u := ← ElementVector.ofJson? u
    d := ← Scalar.ofJson? d
    e := ← ScalarVector.ofJson? e
    bridges := ← ElementVector.ofJson? bridges
    maskA := ← Element.ofJson? maskA
    bridgeMasks := ← ElementVector.ofJson? bridgeMasks
    maskC := ← Element.ofJson? maskC
    maskD := ← Element.ofJson? maskD
    rowMask := ← Row.ofJson? rowMask }

/-- The second message that a JSON value stands for. -/
def ProofReply.ofJson? (value : Json) : Option ProofReply := do
  let [kA, kB, kC, kD, kE, kF] ←
    value.fields? ["k_A", "k_B", "k_C", "k_D", "k_E", "k_F"] | none
  return {
    kA := ← Scalar.ofJson? kA
    kB := ← ScalarVector.ofJson? kB
    kC := ← Scalar.ofJson? kC
    kD := ← Scalar.ofJson? kD
    kE := ← ScalarVector.ofJson? kE
    kF := ← ScalarVector.ofJson? kF }

/-- The proof that a JSON value stands for. -/
def ShuffleProof.ofJsonValue? (value : Json) : Option ShuffleProof := do
  let [mixName, commitment, reply] ← value.fields? ["mix_name", "commitment", "reply"] | none
  return {
    mixName := ← mixName.text?
    commitment := ← ProofCommitment.ofJson? commitment
    reply := ← ProofReply.ofJson? reply }

/-- The proof that a JSON text stands for. -/
def ShuffleProof.ofJson (text : String) : Except Error ShuffleProof :=
  match Json.parse text >>= ShuffleProof.ofJsonValue? with
  | some proof => .ok proof
  | none => .error .serialization

end VerifiableMix
