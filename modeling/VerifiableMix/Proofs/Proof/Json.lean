import VerifiableMix.Proof.Json
import VerifiableMix.Proof.Verifier
import VerifiableMix.Proofs.Json
import VerifiableMix.Proofs.Proof.Elements

/-!
# Proofs as JSON are read back

A proof whose elements fit their width is read back from its JSON text as it was: every
scalar, and every element with its value and its width, in vectors of any length, under
any name.  What holds of the proof therefore holds of the one that was read.

## Main results

* `ofJson?_list` — a list is read back when its items are.
* `ShuffleProof.ofJsonValue?_toJson` — a proof is read back from its value.
* `ShuffleProof.ofJson_toJson` — a proof is read back from its text.
-/

namespace VerifiableMix

open Failure

/-! ## Parts -/

theorem Scalar.ofJson?_toJson (x : Scalar) : Scalar.ofJson? x.toDocument.toJson = some x := by
  show (Scalar.ofHex x.toHex).toOption = some x
  rw [x.ofHex_toHex]
  rfl

theorem Element.FitsWidth.ofJson?_toJson {x : Element} (h : x.FitsWidth) :
    Element.ofJson? x.toDocument.toJson = some x := by
  show (Element.ofHex x.toHex).toOption = some x
  rw [h.ofHex_toHex]
  rfl

/-- A list is read back when its items are. -/
theorem ofJson?_list {α : Type} {write : α → Document} {read : Json → Option α} {xs : List α}
    (h : ∀ x ∈ xs, read (write x).toJson = some x) :
    (do (← (Document.list (xs.map write)).toJson.items?).mapM read) = some xs := by
  show (Document.itemsToJson (xs.map write)).mapM read = some xs
  rw [Document.itemsToJson_eq_map, List.map_map, List.mapM_map]
  have hread : xs.mapM (read ∘ Document.toJson ∘ write) = some (xs.map id) :=
    mapM_eq_pure h
  rw [List.map_id] at hread
  exact hread

theorem ScalarVector.ofJson?_toJson (xs : ScalarVector) :
    ScalarVector.ofJson? xs.toDocument.toJson = some xs :=
  ofJson?_list fun x _ => x.ofJson?_toJson

theorem ElementVector.ofJson?_toJson {xs : ElementVector} (h : ∀ x ∈ xs, x.FitsWidth) :
    ElementVector.ofJson? xs.toDocument.toJson = some xs :=
  ofJson?_list fun x hx => (h x hx).ofJson?_toJson

theorem Ciphertext.ofJson?_toJson {x : Ciphertext} (hpad : x.pad.FitsWidth)
    (hdata : x.data.FitsWidth) : Ciphertext.ofJson? x.toDocument.toJson = some x := by
  have hfields : x.toDocument.toJson.fields? ["pad", "data"] =
      some [x.pad.toDocument.toJson, x.data.toDocument.toJson] :=
    Document.fields?_record [("pad", x.pad.toDocument), ("data", x.data.toDocument)] (by simp)
  rw [Ciphertext.ofJson?, hfields]
  simp [hpad.ofJson?_toJson, hdata.ofJson?_toJson]

theorem Row.ofJson?_toJson {row : Row} (h : ∀ x ∈ row.elements, x.FitsWidth) :
    Row.ofJson? row.toDocument.toJson = some row := by
  refine ofJson?_list fun x hx => Ciphertext.ofJson?_toJson (h _ ?_) (h _ ?_)
  · exact List.mem_flatMap.mpr ⟨x, hx, by simp⟩
  · exact List.mem_flatMap.mpr ⟨x, hx, by simp⟩

/-! ## Messages -/

theorem ProofCommitment.ofJson?_toJson {c : ProofCommitment} (h : ∀ x ∈ c.elements, x.FitsWidth) :
    ProofCommitment.ofJson? c.toDocument.toJson = some c := by
  have hfields : c.toDocument.toJson.fields?
      ["u", "d", "e", "B", "A_p", "B_p", "C_p", "D_p", "F_p"] =
      some [c.u.toDocument.toJson, c.d.toDocument.toJson, c.e.toDocument.toJson,
        c.bridges.toDocument.toJson, c.maskA.toDocument.toJson, c.bridgeMasks.toDocument.toJson,
        c.maskC.toDocument.toJson, c.maskD.toDocument.toJson, c.rowMask.toDocument.toJson] :=
    Document.fields?_record _ (by simp)
  simp only [elements, List.mem_append, List.mem_cons, List.not_mem_nil, or_false, or_imp,
    forall_and, forall_eq] at h
  obtain ⟨⟨⟨⟨⟨hu, hB⟩, hA'⟩, hB'⟩, hC', hD'⟩, hF'⟩ := h
  rw [ProofCommitment.ofJson?, hfields]
  simp [ElementVector.ofJson?_toJson hu, ElementVector.ofJson?_toJson hB,
    ElementVector.ofJson?_toJson hB', ScalarVector.ofJson?_toJson, Scalar.ofJson?_toJson,
    hA'.ofJson?_toJson, hC'.ofJson?_toJson, hD'.ofJson?_toJson, Row.ofJson?_toJson hF']

theorem ProofReply.ofJson?_toJson (k : ProofReply) :
    ProofReply.ofJson? k.toDocument.toJson = some k := by
  have hfields : k.toDocument.toJson.fields? ["k_A", "k_B", "k_C", "k_D", "k_E", "k_F"] =
      some [k.kA.toDocument.toJson, k.kB.toDocument.toJson, k.kC.toDocument.toJson,
        k.kD.toDocument.toJson, k.kE.toDocument.toJson, k.kF.toDocument.toJson] :=
    Document.fields?_record _ (by simp)
  rw [ProofReply.ofJson?, hfields]
  simp [ScalarVector.ofJson?_toJson, Scalar.ofJson?_toJson]

/-- A proof is read back from its value. -/
theorem ShuffleProof.ofJsonValue?_toJson {proof : ShuffleProof}
    (h : ∀ x ∈ proof.elements, x.FitsWidth) :
    ShuffleProof.ofJsonValue? proof.toDocument.toJson = some proof := by
  have hfields : proof.toDocument.toJson.fields? ["mix_name", "commitment", "reply"] =
      some [.string (some proof.mixName), proof.commitment.toDocument.toJson,
        proof.reply.toDocument.toJson] :=
    Document.fields?_record _ (by simp)
  rw [ShuffleProof.ofJsonValue?, hfields]
  simp [Json.text?, ProofCommitment.ofJson?_toJson h, ProofReply.ofJson?_toJson]

/-- A proof is read back from its text, so validation and verification answer for the
proof that was read as they do for the one that was written. -/
theorem ShuffleProof.ofJson_toJson {proof : ShuffleProof}
    (h : ∀ x ∈ proof.elements, x.FitsWidth) :
    ShuffleProof.ofJson proof.toJson = .ok proof ∧
    (∀ (G : Group) (n width : Nat),
      (do (← ShuffleProof.ofJson proof.toJson).validate G n width) = proof.validate G n width) ∧
    (∀ (O : Oracle) (V : Verifier),
      (do V.verify O (← ShuffleProof.ofJson proof.toJson)) = V.verify O proof) := by
  have hread : ShuffleProof.ofJson proof.toJson = .ok proof := by
    rw [ShuffleProof.ofJson, ShuffleProof.toJson, Document.parse_render, Option.bind_eq_bind,
      Option.bind_some, ShuffleProof.ofJsonValue?_toJson h]
  refine ⟨hread, fun G n width => ?_, fun O V => ?_⟩
  · rw [hread, ok_bind]
  · rw [hread, ok_bind]

/-- A name with characters of every kind, vectors without entries, and elements that
begin with zero bytes. -/
theorem ShuffleProof.ofJson_toJson_escapes :
    let proof : ShuffleProof :=
      { mixName := "\"\\/\x07\n\x7fé😀"
        commitment :=
          { u := [], d := 0, e := [], bridges := [⟨1, 3⟩], maskA := ⟨0, 1⟩, bridgeMasks := []
            maskC := ⟨255, 1⟩, maskD := ⟨7, 2⟩, rowMask := [⟨⟨0, 2⟩, ⟨65535, 2⟩⟩] }
        reply := { kA := 1, kB := [], kC := 0, kD := -1, kE := [], kF := [2, 3] } }
    (∀ x ∈ proof.elements, x.FitsWidth) ∧ ShuffleProof.ofJson proof.toJson = .ok proof := by
  intro proof
  have hfits : ∀ x ∈ proof.elements, x.FitsWidth := by decide
  exact ⟨hfits, (ShuffleProof.ofJson_toJson hfits).1⟩

end VerifiableMix
