import VerifiableMix.Permutation
import VerifiableMix.Random.Sampler

/-!
# Random permutations

The Fisher–Yates shuffle: from the last place down to place 1, the entry is
swapped with one at its own or a lower place.  `swapAll` runs the shuffle for a
given list of choices, so the draw and its effect are kept apart: a random
permutation is the effect of choices that are drawn one after the other.
-/

namespace VerifiableMix.Permutation

/-- The places that receive a choice, in order: `n - 1, …, 1`. -/
def choicePlaces (n : Nat) : List Nat :=
  (List.range' 1 (n - 1)).reverse

/-- The images after swapping each place with the chosen one in turn. -/
def swapAll (n : Nat) (choices : List Nat) : Array Nat :=
  ((choicePlaces n).zip choices).foldl
    (fun image (place, choice) => image.swapIfInBounds place choice) (Array.range n)

/-- Draws a choice for every place: a place at or below it. -/
def drawChoices : List Nat → Sampler (List Nat)
  | [] => return []
  | place :: rest => do
    let choice ← Sampler.below (place + 1)
    return choice :: (← drawChoices rest)

/-- Draws a permutation of `n` indices. -/
def sample (n : Nat) : Sampler Permutation := do
  let choices ← drawChoices (choicePlaces n)
  liftM (ofImages (swapAll n choices).toList)

end VerifiableMix.Permutation
