import VerifiableMix.Error

/-!
# Permutations of row indices

A permutation of `0, …, n - 1` is stored with its inverse, so that both
directions are look-ups.  That the two tables undo each other is part of the
type: a `Permutation` *is* a bijection.

A permutation is built from the list of its images.  The list is accepted
exactly when its entries are below its length and pairwise different; that
such a list hits every index is the pigeonhole argument
`mem_of_nodup_of_forall_lt`.

## Main results

* `inv_of`, `of_inv` — the two directions undo each other.
* `firstFault_eq_none_iff` — no fault is found exactly when the entries are
  in range and different.
-/

namespace VerifiableMix

/-- A bijection of `0, …, size - 1`, with its inverse. -/
structure Permutation where
  size : Nat
  forward : Vector (Fin size) size
  backward : Vector (Fin size) size
  backward_forward : ∀ i : Fin size, backward[forward[i]] = i
  forward_backward : ∀ i : Fin size, forward[backward[i]] = i
deriving DecidableEq

namespace Permutation

/-- The image of an index. -/
def of (psi : Permutation) (i : Fin psi.size) : Fin psi.size := psi.forward[i]

/-- The index whose image is given. -/
def inv (psi : Permutation) (i : Fin psi.size) : Fin psi.size := psi.backward[i]

@[simp] theorem inv_of (psi : Permutation) (i : Fin psi.size) : psi.inv (psi.of i) = i :=
  psi.backward_forward i

@[simp] theorem of_inv (psi : Permutation) (i : Fin psi.size) : psi.of (psi.inv i) = i :=
  psi.forward_backward i

/-- The inverse bijection. -/
def inverse (psi : Permutation) : Permutation :=
  { size := psi.size
    forward := psi.backward
    backward := psi.forward
    backward_forward := psi.forward_backward
    forward_backward := psi.backward_forward }

/-- The images of `0, 1, …` in order. -/
def images (psi : Permutation) : List Nat :=
  List.ofFn fun i => (psi.of i).val

/-- The image of an index, or nothing outside the domain. -/
def of? (psi : Permutation) (i : Nat) : Option Nat :=
  if h : i < psi.size then some (psi.of ⟨i, h⟩).val else none

/-- The index whose image is given, or nothing outside the domain. -/
def inv? (psi : Permutation) (i : Nat) : Option Nat :=
  if h : i < psi.size then some (psi.inv ⟨i, h⟩).val else none

/-- The permutation that moves nothing. -/
def identity (n : Nat) : Permutation :=
  { size := n
    forward := Vector.ofFn id
    backward := Vector.ofFn id
    backward_forward := by simp
    forward_backward := by simp }

/-! ## Lists of images -/

/-- The fault of the first entry that is out of range or was seen before. -/
def firstFault (n : Nat) (seen : List Nat) : List Nat → Option IndexFault
  | [] => none
  | x :: rest =>
    if n ≤ x then some .outOfRange
    else if x ∈ seen then some .repeated
    else firstFault n (x :: seen) rest

theorem firstFault_eq_none_iff {n : Nat} {seen image : List Nat} :
    firstFault n seen image = none ↔
      (∀ x ∈ image, x < n) ∧ image.Nodup ∧ ∀ x ∈ image, x ∉ seen := by
  induction image generalizing seen with
  | nil => simp [firstFault]
  | cons x rest ih =>
    by_cases hrange : n ≤ x
    · simp only [firstFault, hrange, if_true, reduceCtorEq, false_iff]
      intro h
      have := h.1 x (by simp)
      omega
    · by_cases hseen : x ∈ seen
      · simp [firstFault, hrange, hseen]
      · simp only [firstFault, hrange, hseen, if_false, ih, List.nodup_cons]
        constructor
        · rintro ⟨hlt, hnodup, hnew⟩
          refine ⟨List.forall_mem_cons.mpr ⟨by omega, hlt⟩,
            ⟨fun hx => hnew x hx (by simp), hnodup⟩, List.forall_mem_cons.mpr ⟨hseen, ?_⟩⟩
          exact fun y hy hyseen => hnew y hy (by simp [hyseen])
        · rintro ⟨hlt, ⟨hx, hnodup⟩, hnew⟩
          refine ⟨fun y hy => hlt y (by simp [hy]), hnodup, fun y hy hyseen => ?_⟩
          rcases List.mem_cons.mp hyseen with rfl | hyseen
          · exact hx hy
          · exact hnew y (by simp [hy]) hyseen

/-- A list without repetition is no longer than a list that contains it. -/
private theorem length_le_of_nodup_of_subset {image : List Nat} (hnodup : image.Nodup)
    (all : List Nat) (hsub : ∀ x ∈ image, x ∈ all) : image.length ≤ all.length := by
  induction image generalizing all with
  | nil => simp
  | cons x rest ih =>
    have hx : x ∈ all := hsub x (by simp)
    obtain ⟨hxrest, hrest⟩ := List.nodup_cons.mp hnodup
    have hle := ih hrest (all.erase x) fun y hy =>
      (List.mem_erase_of_ne (by rintro rfl; exact hxrest hy)).mpr (hsub y (by simp [hy]))
    rw [List.length_erase_of_mem hx] at hle
    have := List.length_pos_of_mem hx
    simp only [List.length_cons]
    omega

/-- Pigeonhole: `n` different numbers below `n` are all numbers below `n`. -/
theorem mem_of_nodup_of_forall_lt {image : List Nat} (hnodup : image.Nodup)
    (hlt : ∀ x ∈ image, x < image.length) {y : Nat} (hy : y < image.length) : y ∈ image := by
  refine Classical.byContradiction fun hmem => ?_
  have hle := length_le_of_nodup_of_subset (List.nodup_cons.mpr ⟨hmem, hnodup⟩)
    (List.range image.length) fun x hx => by
      rcases List.mem_cons.mp hx with rfl | hx
      · exact List.mem_range.mpr hy
      · exact List.mem_range.mpr (hlt x hx)
  simp only [List.length_cons, List.length_range] at hle
  omega

/-- The permutation with the given images. -/
def ofNodup (image : List Nat) (hlt : ∀ x ∈ image, x < image.length) (hnodup : image.Nodup) :
    Permutation :=
  { size := image.length
    forward := Vector.ofFn fun i => ⟨image[i], hlt _ (List.getElem_mem i.isLt)⟩
    backward := Vector.ofFn fun j =>
      ⟨image.idxOf j.val,
        List.idxOf_lt_length_of_mem (mem_of_nodup_of_forall_lt hnodup hlt j.isLt)⟩
    backward_forward := fun i => by
      apply Fin.ext
      simp only [Fin.getElem_fin, Vector.getElem_ofFn]
      exact hnodup.idxOf_getElem i.val i.isLt
    forward_backward := fun j => by
      apply Fin.ext
      simp only [Fin.getElem_fin, Vector.getElem_ofFn]
      exact List.getElem_idxOf _ }

/-- The permutation with the given images, or the first fault in the list. -/
def ofImages (image : List Nat) : Except Error Permutation :=
  match h : firstFault image.length [] image with
  | some fault => .error (.invalidPermutation fault)
  | none =>
    .ok (ofNodup image (firstFault_eq_none_iff.mp h).1 (firstFault_eq_none_iff.mp h).2.1)

end Permutation

end VerifiableMix
