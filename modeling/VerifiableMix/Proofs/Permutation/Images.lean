import Mathlib.Data.List.FinRange
import Mathlib.Data.List.Nodup
import VerifiableMix.Permutation

/-!
# Permutations and their lists of images

A list of numbers is accepted as the images of a permutation up to its first
fault: an entry that is out of range or was there before.  A list without a fault
has `n` different entries below `n`, so every number below `n` is an entry.  Hence
a table of zeros, in which the place of each entry is written into the slot that
the entry names, is written in every slot, and it is the table of the inverse.

## Main results

* `firstFault_eq_some` — the scan reports the fault of the first place that has one.
* `ofImages_eq_ok_iff` — a list is accepted as a permutation with these images.
* `images_inverse` — the table that is written place by place is that of the inverse.
* `ofImages_exact` — which lists are accepted, and how the others are refused.
-/

namespace VerifiableMix.Permutation

variable {n : Nat} {image : List Nat} {psi : Permutation}

/-! ## The first fault -/

/-- The entry at a place is out of range or stands at an earlier place as well. -/
def FaultAt (image : List Nat) (i : Nat) : Prop :=
  ∃ _ : i < image.length, image.length ≤ image[i] ∨ image[i] ∈ image.take i

instance (image : List Nat) (i : Nat) : Decidable (FaultAt image i) :=
  inferInstanceAs (Decidable (∃ _ : i < image.length, _ ∨ _))

/-- Behind entries without a fault the scan goes on, with these entries seen. -/
theorem firstFault_append {seen clean rest : List Nat} (h : firstFault n seen clean = none) :
    firstFault n seen (clean ++ rest) = firstFault n (clean.reverse ++ seen) rest := by
  induction clean generalizing seen with
  | nil => rfl
  | cons x clean ih =>
      by_cases hrange : n ≤ x
      · simp [firstFault, hrange] at h
      · by_cases hseen : x ∈ seen
        · simp [firstFault, hrange, hseen] at h
        · simp only [firstFault, hrange, hseen, if_false] at h
          simp only [List.cons_append, firstFault, hrange, hseen, if_false, ih h,
            List.reverse_cons, List.append_assoc, List.nil_append]

/-- No fault is found in front of a place if no place before it has one. -/
theorem firstFault_take_eq_none {i : Nat} (h : ∀ j < i, ¬FaultAt image j) :
    firstFault image.length [] (image.take i) = none := by
  have hclean : ∀ j (hj : j < image.length), j < i →
      image[j] < image.length ∧ image[j] ∉ image.take j := by
    intro j hj hji
    constructor
    · by_contra hrange
      exact h j hji ⟨hj, .inl (Nat.le_of_not_lt hrange)⟩
    · intro hrepeated
      exact h j hji ⟨hj, .inr hrepeated⟩
  rw [firstFault_eq_none_iff]
  refine ⟨fun x hx => ?_, List.pairwise_iff_getElem.mpr fun j k hj hk hjk => ?_, by simp⟩
  · obtain ⟨j, hj, rfl⟩ := List.mem_take_iff_getElem.mp hx
    exact (hclean j (by omega) (by omega)).1
  · rw [List.length_take] at hj hk
    rw [List.getElem_take, List.getElem_take]
    intro hequal
    apply (hclean k (by omega) (by omega)).2
    exact List.mem_take_iff_getElem.mpr ⟨j, by omega, hequal⟩

/-- The scan reports the fault of the first place that has one. -/
theorem firstFault_eq_some {i : Nat} (hi : i < image.length) (hfault : FaultAt image i)
    (hfirst : ∀ j < i, ¬FaultAt image j) :
    firstFault image.length [] image =
      some (if image.length ≤ image[i] then .outOfRange else .repeated) := by
  have hsplit : image.take i ++ image[i] :: image.drop (i + 1) = image := by
    rw [List.getElem_cons_drop, List.take_append_drop]
  have hscan : firstFault image.length [] (image.take i ++ image[i] :: image.drop (i + 1)) =
      firstFault image.length (image.take i).reverse (image[i] :: image.drop (i + 1)) := by
    rw [firstFault_append (firstFault_take_eq_none hfirst), List.append_nil]
  rw [hsplit] at hscan
  rw [hscan, firstFault]
  by_cases hrange : image.length ≤ image[i]
  · rw [if_pos hrange, if_pos hrange]
  · obtain ⟨_, hrepeated⟩ := hfault
    have hseen : image[i] ∈ (image.take i).reverse :=
      List.mem_reverse.mpr (hrepeated.resolve_left hrange)
    rw [if_neg hrange, if_neg hrange, if_pos hseen]

/-! ## Images -/

@[simp] theorem length_images (psi : Permutation) : psi.images.length = psi.size :=
  List.length_ofFn

theorem getElem?_images (psi : Permutation) (i : Nat) : psi.images[i]? = psi.of? i := by
  rw [images, List.getElem?_ofFn, of?]

theorem lt_of_mem_images {x : Nat} (h : x ∈ psi.images) : x < psi.size := by
  obtain ⟨i, rfl⟩ := List.mem_ofFn.mp h
  exact (psi.of i).isLt

theorem nodup_images (psi : Permutation) : psi.images.Nodup := by
  refine List.nodup_ofFn.mpr fun i j hij => ?_
  rw [← psi.inv_of i, Fin.ext hij, psi.inv_of]

/-- A permutation is determined by its images. -/
theorem images_injective : Function.Injective images := by
  intro psi psi' h
  have hsize : psi.size = psi'.size := by rw [← length_images, h, length_images]
  obtain ⟨n, forward, backward, hbackward, hforward⟩ := psi
  obtain ⟨_, forward', backward', hbackward', hforward'⟩ := psi'
  obtain rfl : n = _ := hsize
  have hentry : ∀ i : Fin n, forward[i] = forward'[i] := by
    intro i
    exact Fin.ext (congrFun (List.ofFn_injective h) i)
  obtain rfl : forward = forward' := Vector.ext fun i hi => hentry ⟨i, hi⟩
  -- the other direction has no choice
  have hinverse : ∀ i : Fin n, backward[i] = backward'[i] := by
    intro i
    calc backward[i] = backward'[forward[backward[i]]] := (hbackward' _).symm
      _ = backward'[i] := congrArg (fun j : Fin n => backward'[j]) (hforward i)
  obtain rfl : backward = backward' := Vector.ext fun i hi => hinverse ⟨i, hi⟩
  rfl

theorem images_ofNodup (hlt : ∀ x ∈ image, x < image.length) (hnodup : image.Nodup) :
    (ofNodup image hlt hnodup).images = image := by
  have hentry : ∀ i : Fin image.length, ((ofNodup image hlt hnodup).of i).val = image[i.val] := by
    intro i
    show ((Vector.ofFn fun i : Fin image.length => (⟨image[i], _⟩ : Fin image.length))[i.val]).val =
      image[i.val]
    rw [Vector.getElem_ofFn]
    rfl
  calc (ofNodup image hlt hnodup).images = List.ofFn fun i : Fin image.length => image[i.val] :=
        congrArg List.ofFn (funext hentry)
    _ = image := List.ofFn_getElem

theorem ofImages_of_fault {fault : IndexFault}
    (h : firstFault image.length [] image = some fault) :
    ofImages image = .error (.invalidPermutation fault) := by
  rw [ofImages]
  split
  · rename_i hsome
    rw [Option.some.inj (hsome.symm.trans h)]
  · rename_i hnone
    cases hnone.symm.trans h

theorem exists_ofImages (h : firstFault image.length [] image = none) :
    ∃ psi, ofImages image = .ok psi ∧ psi.images = image := by
  rw [ofImages]
  split
  · rename_i hsome
    cases hsome.symm.trans h
  · exact ⟨_, rfl, images_ofNodup _ _⟩

/-- A list is accepted as a permutation that has these images, and only so. -/
theorem ofImages_eq_ok_iff : ofImages image = .ok psi ↔ psi.images = image := by
  constructor
  · intro h
    cases hfault : firstFault image.length [] image with
    | some fault =>
        rw [ofImages_of_fault hfault] at h
        cases h
    | none =>
        obtain ⟨psi', hpsi', himages⟩ := exists_ofImages hfault
        obtain rfl := Except.ok.inj (hpsi'.symm.trans h)
        exact himages
  · rintro rfl
    have hclean : firstFault psi.images.length [] psi.images = none := by
      rw [firstFault_eq_none_iff, length_images]
      exact ⟨fun _ => lt_of_mem_images, psi.nodup_images, by simp⟩
    obtain ⟨psi', hpsi', himages⟩ := exists_ofImages hclean
    rw [hpsi', images_injective himages]

/-! ## The table of the inverse -/

/-- Writes the place of each entry into the slot that the entry names; the first
entry stands at the given place. -/
def writeSlots (table : List Nat) (place : Nat) : List Nat → List Nat
  | [] => table
  | x :: rest => writeSlots (table.set x place) (place + 1) rest

/-- The table that is written from zeros. -/
def inverseTable (image : List Nat) : List Nat :=
  writeSlots (List.replicate image.length 0) 0 image

theorem length_writeSlots (table : List Nat) (place : Nat) (image : List Nat) :
    (writeSlots table place image).length = table.length := by
  induction image generalizing table place with
  | nil => rfl
  | cons x rest ih => rw [writeSlots, ih, List.length_set]

/-- A slot that no entry names is left as it is. -/
theorem getElem?_writeSlots_of_notMem {table : List Nat} {place slot : Nat} (h : slot ∉ image) :
    (writeSlots table place image)[slot]? = table[slot]? := by
  induction image generalizing table place with
  | nil => rfl
  | cons x rest ih =>
      obtain ⟨hx, hrest⟩ := List.ne_and_not_mem_of_not_mem_cons h
      rw [writeSlots, ih hrest, List.getElem?_set_ne (Ne.symm hx)]

/-- Different entries do not overwrite one another. -/
theorem getElem?_writeSlots {table : List Nat} {place i : Nat} (hnodup : image.Nodup)
    (hi : i < image.length) (hslot : image[i] < table.length) :
    (writeSlots table place image)[image[i]]? = some (place + i) := by
  induction image generalizing table place i with
  | nil => cases hi
  | cons x rest ih =>
      obtain ⟨hx, hrest⟩ := List.nodup_cons.mp hnodup
      cases i with
      | zero =>
          rw [List.getElem_cons_zero] at hslot ⊢
          rw [writeSlots, getElem?_writeSlots_of_notMem hx, List.getElem?_set_self hslot,
            Nat.add_zero]
      | succ i =>
          rw [List.getElem_cons_succ] at hslot ⊢
          rw [writeSlots, ih hrest _ (by rwa [List.length_set])]
          congr 1
          omega

/-- The table that is written place by place is that of the inverse: every slot is
named by the image that the inverse takes back. -/
theorem images_inverse (psi : Permutation) : psi.inverse.images = inverseTable psi.images := by
  have hlength : (inverseTable psi.images).length = psi.size := by
    rw [inverseTable, length_writeSlots, List.length_replicate, length_images]
  refine List.ext_getElem? fun slot => ?_
  by_cases hslot : slot < psi.size
  · let i := psi.inv ⟨slot, hslot⟩
    have hi : i.val < psi.images.length := by rw [length_images]; exact i.isLt
    have hentry : psi.images[i.val] = slot := by simp [images, i]
    have hwritten : (inverseTable psi.images)[psi.images[i.val]]? = some (0 + i.val) :=
      getElem?_writeSlots psi.nodup_images hi
        (by rw [List.length_replicate, length_images, hentry]; exact hslot)
    rw [hentry, Nat.zero_add] at hwritten
    rw [hwritten, getElem?_images]
    exact dif_pos hslot
  · rw [List.getElem?_eq_none (by rw [length_images]; exact Nat.le_of_not_lt hslot),
      List.getElem?_eq_none (by rw [hlength]; exact Nat.le_of_not_lt hslot)]

/-! ## What is accepted -/

/-- The permutation takes each index to the entry at its place, its two directions
undo each other and are exchanged in its inverse, and the table of the inverse is the
one that is written from zeros. -/
structure Represents (psi : Permutation) (image : List Nat) : Prop where
  size_eq : psi.size = image.length
  of?_eq : ∀ i, psi.of? i = image[i]?
  of?_inv? : ∀ i < psi.size, (psi.inv? i).bind psi.of? = some i
  inv?_of? : ∀ i < psi.size, (psi.of? i).bind psi.inv? = some i
  inverse_of? : ∀ i, psi.inverse.of? i = psi.inv? i
  inverse_inv? : ∀ i, psi.inverse.inv? i = psi.of? i
  inverse_images : psi.inverse.images = inverseTable image

theorem represents_images (psi : Permutation) : psi.Represents psi.images where
  size_eq := psi.length_images.symm
  of?_eq i := (psi.getElem?_images i).symm
  of?_inv? i hi := by simp [inv?, of?, hi]
  inv?_of? i hi := by simp [inv?, of?, hi]
  inverse_of? _ := rfl
  inverse_inv? _ := rfl
  inverse_images := psi.images_inverse

/-- A list is accepted exactly when no place has a fault, as a permutation that it
represents.  Any other list is refused for the fault of the first place that has one:
the entry is out of range, or else it is repeated. -/
theorem ofImages_exact (image : List Nat) :
    (∀ i (hi : i < image.length), FaultAt image i → (∀ j < i, ¬FaultAt image j) →
      ∃ fault, ofImages image = .error (.invalidPermutation fault) ∧
        fault.message =
          if image.length ≤ image[i] then "index out of range" else "repeated index") ∧
    ((∀ i, ¬FaultAt image i) → ∃ psi, ofImages image = .ok psi ∧ psi.Represents image) := by
  constructor
  · intro i hi hfault hfirst
    refine ⟨_, ofImages_of_fault (firstFault_eq_some hi hfault hfirst), ?_⟩
    split <;> rfl
  · intro hclean
    have hscan := firstFault_take_eq_none (i := image.length) fun j _ => hclean j
    rw [List.take_length] at hscan
    obtain ⟨psi, hpsi, rfl⟩ := exists_ofImages hscan
    exact ⟨psi, hpsi, psi.represents_images⟩

/-- Of three lists of three entries the first names 3, the second names 0 twice, and
the third is a cycle, which is no inverse of its own. -/
theorem ofImages_exact_three :
    (∃ fault, ofImages [0, 3, 0] = .error (.invalidPermutation fault) ∧
      fault.message = "index out of range") ∧
    (∃ fault, ofImages [0, 0, 3] = .error (.invalidPermutation fault) ∧
      fault.message = "repeated index") ∧
    ∃ psi, ofImages [1, 2, 0] = .ok psi ∧ psi.inverse.images = [2, 0, 1] := by
  have hclean : ∀ i, ¬FaultAt [1, 2, 0] i := by
    intro i hfault
    have hall : ∀ j < 3, ¬FaultAt [1, 2, 0] j := by decide
    exact hall i hfault.1 hfault
  obtain ⟨psi, hpsi, hrepresents⟩ := (ofImages_exact [1, 2, 0]).2 hclean
  exact ⟨(ofImages_exact [0, 3, 0]).1 1 (by decide) (by decide) (by decide),
    (ofImages_exact [0, 0, 3]).1 1 (by decide) (by decide) (by decide),
    psi, hpsi, hrepresents.inverse_images⟩

end VerifiableMix.Permutation
