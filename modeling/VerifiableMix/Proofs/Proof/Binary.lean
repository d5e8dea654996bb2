import VerifiableMix.Proof.Binary
import VerifiableMix.Proofs.Binary
import VerifiableMix.Proofs.Proof.Elements

/-!
# Proofs in binary form are exact

The parts of a proof stand in their fixed order, and its reader reads just these.  So
what is written is read back, whatever follows it, and is not read when it is cut off;
and what is read is what would be written, up to the case of the digits.  The exception
is an element of width zero: it is read from the empty text and written as a zero byte.

## Main results

* `reads_proof` — the reader of a proof reads the parts of a proof.
* `ShuffleProof.binary_exact` — writing and reading a proof agree.
-/

namespace VerifiableMix

open Binary

/-! ## The parts of a proof -/

/-- The parts of a row. -/
def Row.parts (row : Row) : List Part :=
  listParts (fun x : Ciphertext => [.element x.pad] ++ [.element x.data]) row

/-- The parts of a vector of scalars. -/
def ScalarVector.parts (xs : ScalarVector) : List Part :=
  listParts (fun x => [.scalar x]) xs

/-- The parts of a vector of elements. -/
def ElementVector.parts (xs : ElementVector) : List Part :=
  listParts (fun x => [.element x]) xs

/-- The parts of a first message. -/
def ProofCommitment.parts (c : ProofCommitment) : List Part :=
  c.u.parts ++ [.scalar c.d] ++ c.e.parts ++ c.bridges.parts ++ [.element c.maskA] ++
    c.bridgeMasks.parts ++ [.element c.maskC] ++ [.element c.maskD] ++ c.rowMask.parts

/-- The parts of a second message. -/
def ProofReply.parts (k : ProofReply) : List Part :=
  [.scalar k.kA] ++ k.kB.parts ++ [.scalar k.kC] ++ [.scalar k.kD] ++ k.kE.parts ++ k.kF.parts

/-- The parts of a proof. -/
def ShuffleProof.parts (proof : ShuffleProof) : List Part :=
  [.text proof.mixName] ++ proof.commitment.parts ++ proof.reply.parts

/-! ## Writing -/

theorem putList_eq {α : Type} {put : α → Bytes} {parts : α → List Part}
    (h : ∀ x, put x = (parts x).flatMap Part.put) (items : List α) :
    putList put items = (listParts parts items).flatMap Part.put := by
  rw [putList, listParts, List.flatMap_cons, List.flatMap_assoc, funext h]
  rfl

/-- A row is written part by part. -/
theorem putRow_eq (row : Row) : putRow row = row.parts.flatMap Part.put :=
  putList_eq (fun x => by simp [putCiphertext, Part.put]) row

/-- A proof is written part by part. -/
theorem ShuffleProof.toBytes_eq (proof : ShuffleProof) :
    proof.toBytes = proof.parts.flatMap Part.put := by
  have hscalars : ∀ xs : ScalarVector, putList putScalar xs = xs.parts.flatMap Part.put :=
    putList_eq fun x => (List.flatMap_singleton _ _).symm
  have helements : ∀ xs : ElementVector, putList putElement xs = xs.parts.flatMap Part.put :=
    putList_eq fun x => (List.flatMap_singleton _ _).symm
  simp only [toBytes, putCommitment, putReply, hscalars, helements, putRow_eq, parts,
    ProofCommitment.parts, ProofReply.parts, List.flatMap_append, List.flatMap_cons,
    List.flatMap_nil, List.append_nil, Part.put]

/-! ## Reading -/

theorem reads_ciphertext :
    Reads getCiphertext (fun _ => True) fun x => [.element x.pad] ++ [.element x.data] := by
  have hread : Reads getCiphertext (fun _ => True) _ :=
    .bind Ciphertext.pad reads_element fun pad =>
    .bind Ciphertext.data reads_element fun data =>
    .result fun x => by cases x; simp
  exact hread.congr (fun _ => Iff.rfl) fun _ _ => by simp

theorem reads_row : Reads getRow (fun _ => True) Row.parts :=
  reads_list reads_ciphertext

theorem reads_scalars : Reads (getList getScalar) (fun _ => True) ScalarVector.parts :=
  reads_list reads_scalar

theorem reads_elements : Reads (getList getElement) (fun _ => True) ElementVector.parts :=
  reads_list reads_element

theorem reads_commitment : Reads getCommitment (fun _ => True) ProofCommitment.parts := by
  have hread : Reads getCommitment (fun _ => True) _ :=
    .bind ProofCommitment.u reads_elements fun u =>
    .bind ProofCommitment.d reads_scalar fun d =>
    .bind ProofCommitment.e reads_scalars fun e =>
    .bind ProofCommitment.bridges reads_elements fun bridges =>
    .bind ProofCommitment.maskA reads_element fun maskA =>
    .bind ProofCommitment.bridgeMasks reads_elements fun bridgeMasks =>
    .bind ProofCommitment.maskC reads_element fun maskC =>
    .bind ProofCommitment.maskD reads_element fun maskD =>
    .bind ProofCommitment.rowMask reads_row fun rowMask =>
    .result fun c => by
      cases c
      simp [and_assoc]
  exact hread.congr (fun _ => Iff.rfl) fun c _ => by simp [ProofCommitment.parts]

theorem reads_reply : Reads getReply (fun _ => True) ProofReply.parts := by
  have hread : Reads getReply (fun _ => True) _ :=
    .bind ProofReply.kA reads_scalar fun kA =>
    .bind ProofReply.kB reads_scalars fun kB =>
    .bind ProofReply.kC reads_scalar fun kC =>
    .bind ProofReply.kD reads_scalar fun kD =>
    .bind ProofReply.kE reads_scalars fun kE =>
    .bind ProofReply.kF reads_scalars fun kF =>
    .result fun k => by
      cases k
      simp [and_assoc]
  exact hread.congr (fun _ => Iff.rfl) fun k _ => by simp [ProofReply.parts]

/-- The reader of a proof reads the parts of a proof. -/
theorem reads_proof : Reads getProof (fun _ => True) ShuffleProof.parts := by
  have hread : Reads getProof (fun _ => True) _ :=
    .bind ShuffleProof.mixName reads_text fun mixName =>
    .bind ShuffleProof.commitment reads_commitment fun commitment =>
    .bind ShuffleProof.reply reads_reply fun reply =>
    .result fun proof => by
      cases proof
      simp [and_assoc]
  exact hread.congr (fun _ => Iff.rfl) fun proof _ => by simp [ShuffleProof.parts]

/-! ## Proofs -/

theorem mem_listParts {α : Type} {parts : α → List Part} {items : List α} {x : Element} :
    .element x ∈ listParts parts items ↔ ∃ item ∈ items, .element x ∈ parts item := by
  simp [listParts]

/-- The elements among the parts are those of the proof. -/
theorem ShuffleProof.element_mem_parts {proof : ShuffleProof} {x : Element} :
    .element x ∈ proof.parts ↔ x ∈ proof.elements := by
  simp only [parts, ProofCommitment.parts, ProofReply.parts, ElementVector.parts,
    ScalarVector.parts, Row.parts, elements, ProofCommitment.elements, Row.elements,
    List.mem_append, mem_listParts, List.mem_cons, List.mem_flatMap, List.not_mem_nil, or_false]
  simp [or_assoc]

/-- A proof whose elements fit their width and whose lengths fit eight bytes is spelled as
it is written. -/
theorem ShuffleProof.spelling_toBytes {proof : ShuffleProof}
    (helements : ∀ x ∈ proof.elements, x.FitsWidth)
    (hlengths : ∀ part ∈ proof.parts, part.announced < 2 ^ 64) :
    Spelling proof.parts proof.toBytes := by
  rw [proof.toBytes_eq]
  refine spelling_put fun part hpart => ⟨hlengths part hpart, ?_⟩
  rintro x rfl
  exact helements x (element_mem_parts.mp hpart)

theorem ShuffleProof.ofBytes_eq_ok_iff {bytes : Bytes} {proof : ShuffleProof} :
    ofBytes bytes = .ok proof ↔ ∃ rest, getProof.run bytes = some (proof, rest) := by
  rw [ofBytes, decode]
  rcases getProof.run bytes with _ | ⟨read, rest⟩ <;> simp

/-- What is written is read back, whatever follows it, and is not read when it is cut
off.  What is read with no empty text for an element is what is written, up to the case
of the digits of scalars and elements.  The text for an element is empty just when the
element that is read has width zero. -/
theorem ShuffleProof.binary_exact :
    (∀ proof : ShuffleProof, (∀ x ∈ proof.elements, x.FitsWidth) →
      (∀ part ∈ proof.parts, part.announced < 2 ^ 64) →
      (∀ rest, ofBytes (proof.toBytes ++ rest) = .ok proof) ∧
      ∀ initial, initial <+: proof.toBytes → initial ≠ proof.toBytes →
        ofBytes initial = .error .serialization) ∧
    (∀ (bytes : Bytes) (proof : ShuffleProof), ofBytes bytes = .ok proof →
      (∀ x ∈ proof.elements, x.width ≠ 0) →
      ∃ pieces rest, bytes = pieces.flatten ++ rest ∧
        pieces.flatten.length = proof.toBytes.length ∧
        List.Forall₂ Part.SameUpToCase proof.parts pieces) ∧
    (∀ proof : ShuffleProof, proof.toBytes = proof.parts.flatMap Part.put) ∧
    (∀ (text : String) (x : Element), Element.ofHex text = .ok x → (x.width = 0 ↔ text = "")) := by
  refine ⟨fun proof helements hlengths => ⟨fun rest => ?_, fun initial hinitial hne => ?_⟩,
    fun bytes proof hread hwidth => ?_, toBytes_eq,
    fun text x hread => Element.width_eq_zero_iff_of_ofHex hread⟩
  · have hspelling := spelling_toBytes helements hlengths
    exact ofBytes_eq_ok_iff.mpr ⟨rest, reads_proof.run_append trivial hspelling rest⟩
  · have hspelling := spelling_toBytes helements hlengths
    have hcut := reads_proof.run_of_isPrefix trivial hspelling hinitial hne
    rw [ofBytes, decode, hcut]
    rfl
  · obtain ⟨rest, hrun⟩ := ofBytes_eq_ok_iff.mp hread
    obtain ⟨_, read, hspelling, rfl⟩ := reads_proof.run_iff.mp hrun
    obtain ⟨pieces, hpieces, rfl⟩ := hspelling.exists_sameUpToCase fun x hx =>
      Nat.pos_of_ne_zero (hwidth x (element_mem_parts.mp hx))
    refine ⟨pieces, rest, rfl, ?_, hpieces⟩
    rw [proof.toBytes_eq, length_flatten_of_sameUpToCase hpieces]

/-- A proof with an element that begins with a zero byte: followed by another byte, cut
off before its last byte, and with the digits `a` in upper case. -/
theorem ShuffleProof.binary_exact_upperCase :
    let proof : ShuffleProof :=
      { mixName := "é"
        commitment :=
          { u := [], d := 0, e := [], bridges := [⟨171, 2⟩], maskA := ⟨0, 1⟩, bridgeMasks := []
            maskC := ⟨255, 1⟩, maskD := ⟨7, 1⟩, rowMask := [⟨⟨10, 1⟩, ⟨0, 2⟩⟩] }
        reply := { kA := 1, kB := [], kC := 0, kD := 1, kE := [], kF := [] } }
    let upper := proof.toBytes.map fun code => if code = 97 then 65 else code
    ofBytes (proof.toBytes ++ [7]) = .ok proof ∧
    ofBytes proof.toBytes.dropLast = .error .serialization ∧
    upper ≠ proof.toBytes ∧
    ∃ pieces rest, upper ++ [7] = pieces.flatten ++ rest ∧
      pieces.flatten.length = proof.toBytes.length ∧
      List.Forall₂ Part.SameUpToCase proof.parts pieces := by
  intro proof upper
  obtain ⟨hwritten, hread, _, _⟩ := binary_exact
  have helements : ∀ x ∈ proof.elements, x.FitsWidth := by decide
  have hlengths : ∀ part ∈ proof.parts, part.announced < 2 ^ 64 := by decide +kernel
  have hupper : ofBytes (upper ++ [7]) = .ok proof := by decide +kernel
  obtain ⟨happend, hcut⟩ := hwritten proof helements hlengths
  refine ⟨happend [7], hcut proof.toBytes.dropLast ?_ ?_, ?_, ?_⟩
  · exact List.dropLast_prefix _
  · decide +kernel
  · decide +kernel
  · exact hread (upper ++ [7]) proof hupper fun x hx => Nat.ne_of_gt (helements x hx).pos

end VerifiableMix
