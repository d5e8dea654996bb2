import VerifiableMix.Permutation.Sampling
import VerifiableMix.Proofs.Permutation.Images
import VerifiableMix.Proofs.Random.Sampler

/-!
# The Fisher–Yates shuffle ends in a permutation

Every swap rearranges the images, whatever the choice is, so after all swaps
they are still the numbers below `n`, each once, and are accepted as images of
a permutation.

## Main results

* `swapAll_perm` — the images are a rearrangement of `0, …, n - 1`.
* `sample_ensures` — the draw gives a permutation of `n` indices.
-/

namespace VerifiableMix.Permutation

/-- A swap rearranges, also when a place is out of bounds. -/
theorem swapIfInBounds_perm (image : Array Nat) (place choice : Nat) :
    (image.swapIfInBounds place choice).toList.Perm image.toList := by
  rw [Array.swapIfInBounds_def]
  split
  · split
    · exact Array.perm_iff_toList_perm.mp (Array.swap_perm _ _)
    · exact List.Perm.refl _
  · exact List.Perm.refl _

theorem foldl_swap_perm (swaps : List (Nat × Nat)) (image : Array Nat) :
    (swaps.foldl (fun image (place, choice) => image.swapIfInBounds place choice) image).toList.Perm
      image.toList := by
  induction swaps generalizing image with
  | nil => exact List.Perm.refl _
  | cons swap rest ih =>
      rw [List.foldl_cons]
      exact (ih _).trans (swapIfInBounds_perm image swap.1 swap.2)

/-- The images are a rearrangement of `0, …, n - 1`. -/
theorem swapAll_perm (n : Nat) (choices : List Nat) :
    (swapAll n choices).toList.Perm (List.range n) := by
  have h := foldl_swap_perm ((choicePlaces n).zip choices) (Array.range n)
  rwa [Array.toList_range] at h

/-- A rearrangement of `0, …, n - 1` is accepted as images. -/
theorem ofImages_of_perm {n : Nat} {image : List Nat} (h : image.Perm (List.range n)) :
    ∃ psi, ofImages image = .ok psi ∧ psi.size = n := by
  have hlength : image.length = n := by rw [h.length_eq, List.length_range]
  have hfault : firstFault image.length [] image = none := by
    refine firstFault_eq_none_iff.mpr ⟨fun x hx => ?_, ?_, by simp⟩
    · rw [hlength]
      exact List.mem_range.mp (h.mem_iff.mp hx)
    · exact h.nodup_iff.mpr List.nodup_range
  obtain ⟨psi, hpsi, himages⟩ := exists_ofImages hfault
  exact ⟨psi, hpsi, by rw [← length_images, himages, hlength]⟩

/-- A choice is drawn for every place, a place at or below it. -/
theorem drawChoices_ensures (places : List Nat) :
    Sampler.Ensures (drawChoices places) fun choices =>
      List.Forall₂ (fun place choice => choice ≤ place) places choices := by
  induction places with
  | nil => exact Sampler.Ensures.pure List.Forall₂.nil
  | cons place rest ih =>
      exact (Sampler.below_ensures place.succ_pos).bind fun _ hchoice =>
        ih.bind fun _ hrest =>
          Sampler.Ensures.pure (List.Forall₂.cons (Nat.le_of_lt_succ hchoice) hrest)

/-- The draw gives a permutation of `n` indices. -/
theorem sample_ensures (n : Nat) : Sampler.Ensures (sample n) fun psi => psi.size = n := by
  refine (drawChoices_ensures (choicePlaces n)).bind fun choices _ => ?_
  obtain ⟨psi, hpsi, hsize⟩ := ofImages_of_perm (swapAll_perm n choices)
  exact Sampler.Ensures.lift hpsi hsize

end VerifiableMix.Permutation
