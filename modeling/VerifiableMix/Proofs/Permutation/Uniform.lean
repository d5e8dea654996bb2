import VerifiableMix.Proofs.Permutation.Sampling
import VerifiableMix.Proofs.Random.Even

/-!
# Every permutation comes from one list of choices

The places of a shuffle are closed from the last one down.  What stands at a place
when it is closed stays there: later swaps are below it.  So for a permutation that
is to come out, the choice at a place is known, namely the place where the wanted
image stands just then; that place is still open, as all closed ones hold images
that are wanted elsewhere.

A list of choices therefore leads to each permutation in exactly one way, and if the
choice at a place is drawn from the places at or below it, each equally often, then
each of the `n!` permutations has probability `1 / n!`.

## Main results

* `existsUnique_choices` — the choices that lead to given images.
* `bijOn_choices` — choices and permutations correspond to each other.
* `shuffleBy_apply` — permutations are equally likely when numbers below a bound are.
* `fisherYates_exact` — all of this, for every number of indices.
-/

namespace VerifiableMix.Permutation

variable {i n : Nat} {image target : Array Nat} {places choices : List Nat}

/-! ## Choices -/

/-- A choice for every place that receives one: a place at or below it. -/
def Choices (n : Nat) : Set (List Nat) :=
  {choices | List.Forall₂ (fun place choice => choice ≤ place) (choicePlaces n) choices}

/-- The topmost place is the first that receives a choice. -/
theorem choicePlaces_succ (i : Nat) : choicePlaces (i + 2) = (i + 1) :: choicePlaces (i + 1) := by
  simp [choicePlaces, List.range'_concat, Nat.add_comm]

theorem lt_of_mem_choicePlaces {place : Nat} (h : place ∈ choicePlaces n) : place < n := by
  simp only [choicePlaces, List.mem_reverse, List.mem_range'_1] at h
  omega

theorem mem_choices_one : choices ∈ Choices 1 ↔ choices = [] :=
  List.forall₂_nil_left_iff

theorem mem_choices_succ :
    choices ∈ Choices (i + 2) ↔
      ∃ choice rest, choice ≤ i + 1 ∧ rest ∈ Choices (i + 1) ∧ choices = choice :: rest := by
  show List.Forall₂ _ (choicePlaces (i + 2)) choices ↔ _
  rw [choicePlaces_succ, List.forall₂_cons_left_iff]
  rfl

/-! ## Swaps -/

/-- Swaps each place with its choice in turn. -/
def swapAlong (places choices : List Nat) (image : Array Nat) : Array Nat :=
  (places.zip choices).foldl (fun image (place, choice) => image.swapIfInBounds place choice) image

theorem swapAlong_cons (place choice : Nat) (image : Array Nat) :
    swapAlong (place :: places) (choice :: choices) image =
      swapAlong places choices (image.swapIfInBounds place choice) := rfl

/-- A swap fetches the image at the choice. -/
theorem getElem?_swap_place {place choice : Nat} (hplace : place < image.size)
    (hchoice : choice < image.size) :
    (image.swapIfInBounds place choice)[place]? = image[choice]? := by
  rw [Array.swapIfInBounds_def, dif_pos hplace, dif_pos hchoice, Array.getElem?_swap,
    Array.getElem?_eq_getElem hchoice]
  by_cases hsame : choice = place
  · subst hsame
    rw [if_pos rfl]
  · rw [if_neg hsame, if_pos rfl]

/-- A swap does not reach above its places. -/
theorem getElem?_swap_above {place choice j : Nat} (hplace : place < j) (hchoice : choice < j) :
    (image.swapIfInBounds place choice)[j]? = image[j]? := by
  rw [Array.swapIfInBounds_def]
  split
  · split
    · rw [Array.getElem?_swap, if_neg (by omega), if_neg (by omega)]
    · rfl
  · rfl

/-- What stands above all places stays there. -/
theorem getElem?_swapAlong_above {j : Nat} (hplaces : ∀ place ∈ places, place < j)
    (hchoices : List.Forall₂ (fun place choice => choice ≤ place) places choices) :
    (swapAlong places choices image)[j]? = image[j]? := by
  induction hchoices generalizing image with
  | nil => rfl
  | @cons place choice places choices hchoice _ ih =>
      have hplace : place < j := hplaces place (by simp)
      rw [swapAlong_cons, ih fun p hp => hplaces p (by simp [hp]),
        getElem?_swap_above hplace (by omega)]

/-! ## The choices for given images -/

/-- Different places hold different images. -/
theorem place_unique {j k : Nat} (hnodup : image.toList.Nodup) (hj : j < image.size)
    (hequal : image[j]? = image[k]?) : j = k := by
  rw [← Array.getElem?_toList, ← Array.getElem?_toList] at hequal
  exact (List.getElem?_inj (by rwa [Array.length_toList]) hnodup).mp hequal

/-- The image that is wanted at a place stands at or below it, if all places above
already hold what is wanted there. -/
theorem exists_place_le (hi : i < image.size) (hnodup : image.toList.Nodup)
    (hperm : target.toList.Perm image.toList)
    (hclosed : ∀ j, i < j → image[j]? = target[j]?) : ∃ k ≤ i, image[k]? = target[i]? := by
  have hsize : target.size = image.size := by
    rw [← Array.length_toList, hperm.length_eq, Array.length_toList]
  have hwanted : target[i]? = some target[i] := Array.getElem?_eq_getElem (by omega)
  have hmem : target[i] ∈ image.toList :=
    hperm.mem_iff.mp (Array.mem_toList_iff.mpr (Array.getElem_mem _))
  obtain ⟨k, hk, hentry⟩ := List.mem_iff_getElem.mp hmem
  rw [Array.length_toList] at hk
  have hstands : image[k]? = target[i]? := by
    rw [hwanted, Array.getElem?_eq_getElem hk, ← hentry, Array.getElem_toList]
  refine ⟨k, ?_, hstands⟩
  by_contra habove
  -- a closed place would hold it, and so the image would be wanted twice
  have htwice : target[i]? = target[k]? := by rw [← hstands, hclosed k (by omega)]
  have := place_unique (hperm.nodup_iff.mpr hnodup) (by omega) htwice
  omega

/-- If all places above `i` hold what is wanted there, there is one list of choices
for the places up to `i` that leads to all that is wanted. -/
theorem existsUnique_choices (hi : i < image.size) (hnodup : image.toList.Nodup)
    (hperm : target.toList.Perm image.toList)
    (hclosed : ∀ j, i < j → image[j]? = target[j]?) :
    ∃! choices, choices ∈ Choices (i + 1) ∧
      swapAlong (choicePlaces (i + 1)) choices image = target := by
  induction i generalizing image with
  | zero =>
      obtain ⟨k, hk, hstands⟩ := exists_place_le hi hnodup hperm hclosed
      obtain rfl : k = 0 := by omega
      refine ⟨[], ⟨mem_choices_one.mpr rfl, ?_⟩, fun choices h => mem_choices_one.mp h.1⟩
      refine Array.ext_getElem? fun j => ?_
      show image[j]? = target[j]?
      by_cases hj : j = 0
      · rw [hj, hstands]
      · exact hclosed j (by omega)
  | succ i ih =>
      obtain ⟨k, hk, hstands⟩ := exists_place_le hi hnodup hperm hclosed
      have hfetched : (image.swapIfInBounds (i + 1) k)[i + 1]? = target[i + 1]? := by
        rw [getElem?_swap_place hi (by omega), hstands]
      have hnext : ∀ j, i < j → (image.swapIfInBounds (i + 1) k)[j]? = target[j]? := by
        intro j hj
        by_cases htop : j = i + 1
        · rw [htop, hfetched]
        · rw [getElem?_swap_above (by omega) (by omega), hclosed j (by omega)]
      have hrearranged := swapIfInBounds_perm image (i + 1) k
      obtain ⟨rest, ⟨hrest, hrun⟩, hunique⟩ :=
        ih (by rw [Array.size_swapIfInBounds]; omega) (hrearranged.nodup_iff.mpr hnodup)
          (hperm.trans hrearranged.symm) hnext
      rw [choicePlaces_succ]
      refine ⟨k :: rest, ⟨mem_choices_succ.mpr ⟨k, rest, hk, hrest, rfl⟩, hrun⟩, ?_⟩
      rintro choices ⟨hchoices, hrun'⟩
      obtain ⟨k', rest', hk', hrest', rfl⟩ := mem_choices_succ.mp hchoices
      -- the later swaps are below, so the first one has to fetch what is wanted
      have hplaces : ∀ place ∈ choicePlaces (i + 1), place < i + 1 :=
        fun place hplace => lt_of_mem_choicePlaces hplace
      have hstands' : image[k']? = target[i + 1]? := by
        rw [← hrun', swapAlong_cons, getElem?_swapAlong_above hplaces hrest',
          getElem?_swap_place hi (by omega)]
      obtain rfl : k' = k := place_unique hnodup (by omega) (hstands'.trans hstands.symm)
      rw [hunique rest' ⟨hrest', hrun'⟩]

/-! ## Choices and permutations -/

/-- The images are the indices in another order. -/
theorem images_perm (psi : Permutation) : psi.images.Perm (List.range psi.size) := by
  refine (List.perm_ext_iff_of_nodup psi.nodup_images List.nodup_range).mpr fun x => ?_
  rw [List.mem_range]
  refine ⟨lt_of_mem_images, fun hx => ?_⟩
  refine mem_of_nodup_of_forall_lt psi.nodup_images (fun y hy => ?_) ?_
  · rw [length_images]
    exact lt_of_mem_images hy
  · rwa [length_images]

/-- There is one list of choices for a permutation. -/
theorem existsUnique_choices_images (psi : Permutation) :
    ∃! choices, choices ∈ Choices psi.size ∧ (swapAll psi.size choices).toList = psi.images := by
  have himages := psi.images_perm
  generalize psi.size = n at himages ⊢
  cases n with
  | zero =>
      rw [List.range_zero, List.perm_nil] at himages
      rw [himages]
      exact ⟨[], ⟨mem_choices_one.mpr rfl, rfl⟩, fun choices h => mem_choices_one.mp h.1⟩
  | succ i =>
      have hperm : psi.images.toArray.toList.Perm (Array.range (i + 1)).toList := by
        rwa [Array.toList_range]
      have hsize : psi.images.toArray.size = (Array.range (i + 1)).size := by
        rw [← Array.length_toList, hperm.length_eq, Array.length_toList]
      have hclosed : ∀ j, i < j → (Array.range (i + 1))[j]? = psi.images.toArray[j]? := by
        intro j hj
        have hout : (Array.range (i + 1)).size ≤ j := by rw [Array.size_range]; omega
        rw [Array.getElem?_eq_none hout, Array.getElem?_eq_none (hsize ▸ hout)]
      obtain ⟨choices, ⟨hchoices, hrun⟩, hunique⟩ :=
        existsUnique_choices (by rw [Array.size_range]; omega)
          (by rw [Array.toList_range]; exact List.nodup_range) hperm hclosed
      refine ⟨choices, ⟨hchoices, congrArg Array.toList hrun⟩, ?_⟩
      rintro choices' ⟨hchoices', hrun'⟩
      exact hunique choices' ⟨hchoices', Array.toList_inj.mp hrun'⟩

/-- Choices and permutations correspond to each other. -/
theorem bijOn_choices (n : Nat) :
    Set.BijOn (fun choices => ofImages (swapAll n choices).toList) (Choices n)
      (.ok '' {psi : Permutation | psi.size = n}) := by
  refine ⟨?mapsTo, ?injOn, ?surjOn⟩
  case mapsTo =>
    intro choices _
    obtain ⟨psi, hpsi, hsize⟩ := ofImages_of_perm (swapAll_perm n choices)
    exact ⟨psi, hsize, hpsi.symm⟩
  case injOn =>
    intro choices hchoices choices' hchoices' hequal
    obtain ⟨psi, hpsi, rfl⟩ := ofImages_of_perm (swapAll_perm n choices)
    have hpsi' := hequal.symm.trans hpsi
    exact (existsUnique_choices_images psi).unique
      ⟨hchoices, (ofImages_eq_ok_iff.mp hpsi).symm⟩
      ⟨hchoices', (ofImages_eq_ok_iff.mp hpsi').symm⟩
  case surjOn =>
    rintro _ ⟨psi, rfl, rfl⟩
    obtain ⟨choices, hchoices, himages⟩ := (existsUnique_choices_images psi).exists
    exact ⟨choices, hchoices, ofImages_eq_ok_iff.mpr himages.symm⟩

/-! ## Drawing the choices -/

section Drawing

variable {m : Type → Type} [Monad m]

/-- Draws a choice for every place, for any way of drawing a number below a bound. -/
def choicesBy (below : Nat → m Nat) : List Nat → m (List Nat)
  | [] => pure []
  | place :: rest => do
    let choice ← below (place + 1)
    let choices ← choicesBy below rest
    return choice :: choices

/-- The permutation that the drawn choices lead to. -/
def shuffleBy (below : Nat → m Nat) (n : Nat) : m (Except Error Permutation) := do
  let choices ← choicesBy below (choicePlaces n)
  return ofImages (swapAll n choices).toList

end Drawing

theorem drawChoices_eq (places : List Nat) : drawChoices places = choicesBy Sampler.below places := by
  induction places with
  | nil => rfl
  | cons place rest ih => rw [drawChoices, choicesBy, ih]

/-- A permutation is drawn with the numbers that a sampler draws. -/
theorem sample_eq (n : Nat) : sample n = shuffleBy Sampler.below n >>= fun psi => liftM psi := by
  rw [sample, shuffleBy, drawChoices_eq]
  simp only [bind_assoc, pure_bind]

/-! ## Even choices -/

variable {limit : Nat} {below : Nat → PMF Nat}

/-- Only a choice at or below each place is drawn. -/
theorem forall₂_of_mem_support (h : Sampler.DrawsEvenly limit below)
    (hplaces : ∀ place ∈ places, place < limit)
    (hdrawn : choices ∈ (choicesBy below places).support) :
    List.Forall₂ (fun place choice => choice ≤ place) places choices := by
  induction places generalizing choices with
  | nil =>
      obtain rfl := (PMF.mem_support_pure_iff _ _).mp hdrawn
      exact List.Forall₂.nil
  | cons place rest ih =>
      obtain ⟨choice, hchoice, hdrawn⟩ := (PMF.mem_support_bind_iff _ _ _).mp hdrawn
      obtain ⟨tail, htail, hdrawn⟩ := (PMF.mem_support_bind_iff _ _ _).mp hdrawn
      obtain rfl := (PMF.mem_support_pure_iff _ _).mp hdrawn
      have hlt := h.lt place.succ_pos (hplaces place (by simp)) hchoice
      exact List.Forall₂.cons (Nat.le_of_lt_succ hlt)
        (ih (fun p hp => hplaces p (by simp [hp])) htail)

/-- Choices are drawn independently of each other. -/
theorem choicesBy_cons_apply (below : Nat → PMF Nat) (place choice : Nat)
    (places choices : List Nat) :
    choicesBy below (place :: places) (choice :: choices) =
      below (place + 1) choice * choicesBy below places choices := by
  have hlater : ∀ first, ((choicesBy below places).bind fun later => PMF.pure (first :: later))
      (choice :: choices) = if first = choice then choicesBy below places choices else 0 := by
    intro first
    rw [PMF.bind_apply, tsum_eq_single choices]
    · by_cases hfirst : first = choice
      · simp [hfirst]
      · simp [hfirst, Ne.symm hfirst]
    · intro later hlater
      simp [Ne.symm hlater]
  show ((below (place + 1)).bind fun first =>
    (choicesBy below places).bind fun later => PMF.pure (first :: later)) (choice :: choices) = _
  rw [PMF.bind_apply, tsum_eq_single choice]
  · rw [hlater, if_pos rfl]
  · intro first hfirst
    rw [hlater, if_neg hfirst, mul_zero]

/-- Each list of choices is equally likely. -/
theorem choicesBy_apply (h : Sampler.DrawsEvenly limit below) (hn : n ≤ limit)
    (hchoices : choices ∈ Choices n) :
    choicesBy below (choicePlaces n) choices = (n.factorial : ENNReal)⁻¹ := by
  cases n with
  | zero =>
      obtain rfl := mem_choices_one.mp hchoices
      show (PMF.pure []) [] = _
      simp
  | succ i =>
      induction i generalizing choices with
      | zero =>
          obtain rfl := mem_choices_one.mp hchoices
          show (PMF.pure []) [] = _
          simp
      | succ i ih =>
          obtain ⟨choice, rest, hchoice, hrest, rfl⟩ := mem_choices_succ.mp hchoices
          have hfactorial : ((i + 2).factorial : ENNReal)⁻¹ =
              ((i + 2 : Nat) : ENNReal)⁻¹ * ((i + 1).factorial : ENNReal)⁻¹ := by
            rw [Nat.factorial_succ (i + 1), Nat.cast_mul, ENNReal.mul_inv (by simp) (by simp)]
          rw [choicePlaces_succ, choicesBy_cons_apply, h.apply hn (by omega),
            ih (by omega) hrest, hfactorial]

/-- Permutations are equally likely when numbers below a bound are. -/
theorem shuffleBy_apply (h : Sampler.DrawsEvenly n below) (psi : Permutation) (hsize : psi.size = n) :
    shuffleBy below n (.ok psi) = (n.factorial : ENNReal)⁻¹ := by
  subst hsize
  obtain ⟨choices, ⟨hchoices, himages⟩, hunique⟩ := existsUnique_choices_images psi
  show PMF.map (fun choices => ofImages (swapAll psi.size choices).toList)
    (choicesBy below (choicePlaces psi.size)) (.ok psi) = _
  have hplaces : ∀ place ∈ choicePlaces psi.size, place < psi.size :=
    fun place hplace => lt_of_mem_choicePlaces hplace
  rw [PMF.map_apply, tsum_eq_single choices]
  · rw [if_pos (ofImages_eq_ok_iff.mpr himages.symm).symm, choicesBy_apply h le_rfl hchoices]
  · intro other hother
    split
    · rename_i hleads
      by_contra hdrawn
      have hother' := forall₂_of_mem_support h hplaces ((PMF.mem_support_iff _ _).mpr hdrawn)
      exact hother (hunique other ⟨hother', (ofImages_eq_ok_iff.mp hleads.symm).symm⟩)
    · rfl

/-! ## The shuffle -/

/-- What is drawn is the effect of choices that suit their places. -/
theorem sample_ensures_choices (n : Nat) : Sampler.Ensures (sample n) fun psi =>
    ∃ choices ∈ Choices n, ofImages (swapAll n choices).toList = .ok psi := by
  refine (drawChoices_ensures (choicePlaces n)).bind fun choices hchoices => ?_
  obtain ⟨psi, hpsi, _⟩ := ofImages_of_perm (swapAll_perm n choices)
  exact Sampler.Ensures.lift hpsi ⟨choices, hchoices, hpsi⟩

/-- All choices lead to a permutation that is stored with its inverse, and each
permutation comes from one list of choices.  The draw is the effect of choices that are
drawn one after the other, and if each number below a bound is drawn equally often, each
of the `n!` permutations is equally likely. -/
theorem fisherYates_exact (n : Nat) :
    (∀ choices ∈ Choices n, ∃ psi, ofImages (swapAll n choices).toList = .ok psi ∧
      psi.size = n ∧ psi.Represents (swapAll n choices).toList) ∧
    Set.BijOn (fun choices => ofImages (swapAll n choices).toList) (Choices n)
      (.ok '' {psi : Permutation | psi.size = n}) ∧
    (sample n = shuffleBy Sampler.below n >>= fun psi => liftM psi) ∧
    (Sampler.Ensures (sample n) fun psi =>
      ∃ choices ∈ Choices n, ofImages (swapAll n choices).toList = .ok psi) ∧
    ∀ below, Sampler.DrawsEvenly n below → ∀ psi : Permutation, psi.size = n →
      shuffleBy below n (.ok psi) = (n.factorial : ENNReal)⁻¹ := by
  refine ⟨fun choices _ => ?_, bijOn_choices n, sample_eq n, sample_ensures_choices n,
    fun below hbelow psi hsize => shuffleBy_apply hbelow psi hsize⟩
  obtain ⟨psi, hpsi, hsize⟩ := ofImages_of_perm (swapAll_perm n choices)
  refine ⟨psi, hpsi, hsize, ?_⟩
  rw [← ofImages_eq_ok_iff.mp hpsi]
  exact psi.represents_images

/-- Both choices the lowest place: of three indices the cycle comes out, which has its
share of a sixth when numbers are scaled words. -/
theorem fisherYates_exact_cycle :
    ∃ psi, ofImages (swapAll 3 [0, 0]).toList = .ok psi ∧ psi.images = [1, 2, 0] ∧
      psi.inverse.images = [2, 0, 1] ∧ shuffleBy Sampler.scaled 3 (.ok psi) = 6⁻¹ := by
  have hchoices : [0, 0] ∈ Choices 3 :=
    List.Forall₂.cons (by decide) (List.Forall₂.cons (by decide) List.Forall₂.nil)
  obtain ⟨hleads, _, _, _, heven⟩ := fisherYates_exact 3
  obtain ⟨psi, hpsi, hsize, hrepresents⟩ := hleads [0, 0] hchoices
  refine ⟨psi, hpsi, ofImages_eq_ok_iff.mp hpsi, hrepresents.inverse_images, ?_⟩
  exact heven Sampler.scaled (Sampler.drawsEvenly_scaled.mono (by decide)) psi hsize

end VerifiableMix.Permutation
