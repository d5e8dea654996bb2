import VerifiableMix.Proof
import VerifiableMix.Proofs.Group.Member
import VerifiableMix.Proofs.Text

/-!
# The elements of a proof

All elements of a proof stand in its first message.  Validation checks each of them
for membership, and members fit their width, so the elements of a proof that passed
are all read back from their text.

## Main results

* `ProofCommitment.checkMembers_eq_ok_iff` — the check is that of the elements.
* `ShuffleProof.fitsWidth_of_validate` — in a proof that passed, elements fit their width.
-/

namespace VerifiableMix

open VerifiableMix.Group Failure

variable {G : Group}

/-- The elements of a row. -/
def Row.elements (row : Row) : List Element :=
  row.flatMap fun x => [x.pad, x.data]

/-- The elements of a first message, in the order in which they are written. -/
def ProofCommitment.elements (c : ProofCommitment) : List Element :=
  c.u ++ c.bridges ++ [c.maskA] ++ c.bridgeMasks ++ [c.maskC, c.maskD] ++ c.rowMask.elements

/-- The elements of a proof. -/
def ShuffleProof.elements (proof : ShuffleProof) : List Element :=
  proof.commitment.elements

theorem Row.validate_eq_ok_iff {row : Row} :
    row.validate G = .ok () ↔ ∀ x ∈ row.elements, G.checkElement x = .ok () := by
  rw [validate, forM_eq_ok_iff]
  simp only [elements, Ciphertext.validate, bind_eq_ok_iff, List.mem_flatMap, List.mem_cons,
    List.not_mem_nil, or_false]
  constructor
  · rintro h x ⟨y, hy, rfl | rfl⟩
    · exact (h y hy).choose_spec.1
    · exact (h y hy).choose_spec.2
  · exact fun h y hy => ⟨(), h y.pad ⟨y, hy, .inl rfl⟩, h y.data ⟨y, hy, .inr rfl⟩⟩

/-- The check of a first message is that of its elements. -/
theorem ProofCommitment.checkMembers_eq_ok_iff {c : ProofCommitment} :
    c.checkMembers G = .ok () ↔ ∀ x ∈ c.elements, G.checkElement x = .ok () := by
  simp only [checkMembers, bind_eq_ok_iff, ElementVector.validate, forM_eq_ok_iff,
    Row.validate_eq_ok_iff, elements, List.mem_append, List.mem_cons, List.not_mem_nil, or_false,
    or_imp, forall_and, forall_eq]
  constructor
  · rintro ⟨_, hu, _, hB, _, hB', _, hA', _, hC', _, hD', hF'⟩
    exact ⟨⟨⟨⟨⟨hu, hB⟩, hA'⟩, hB'⟩, hC', hD'⟩, hF'⟩
  · rintro ⟨⟨⟨⟨⟨hu, hB⟩, hA'⟩, hB'⟩, hC', hD'⟩, hF'⟩
    exact ⟨(), hu, (), hB, (), hB', (), hA', (), hC', (), hD', hF'⟩

/-- A member fits its width. -/
theorem Group.IsMember.fitsWidth {x : Element} (h : G.IsMember x) : x.FitsWidth := by
  have hx : x = G.element x.value := by
    rw [Group.element, ← h.width_eq]
  rw [hx]
  exact G.fitsWidth_element h.value_lt

/-- In a proof that passed validation, elements fit their width. -/
theorem ShuffleProof.fitsWidth_of_validate {proof : ShuffleProof} {n w : Nat}
    (h : proof.validate G n w = .ok ()) : ∀ x ∈ proof.elements, x.FitsWidth := by
  rw [validate, bind_eq_ok_iff] at h
  obtain ⟨_, _, hmembers⟩ := h
  intro x hx
  have hcheck := ProofCommitment.checkMembers_eq_ok_iff.mp hmembers x hx
  exact (checkElement_eq_ok_iff.mp hcheck).fitsWidth

end VerifiableMix
