import VerifiableMix.Mix
import VerifiableMix.Proofs.Permutation.Uniform
import VerifiableMix.Proofs.Proof.Prover
import VerifiableMix.Proofs.Random.Tape

/-!
# The draws of a mix

A shuffle with proof is a function of what it draws: a permutation, nonces and coins, of
the sizes that its rows ask for.  What is drawn has these sizes, and all that has these
sizes is drawn from some tape.  So what holds for all draws that fit holds for all that a
mix can do, and nothing less would do.

`shuffleAndProve` draws its coins when it has shuffled.  Drawing them before changes
nothing, since no shuffle with a permutation and nonces that fit can fail.

## Main results

* `Draws.sample_ensures` — what is drawn fits.
* `Draws.exists_sample_gives` — all that fits can be drawn.
* `shuffleAndProve_eq` — shuffling with proof draws first and computes afterwards.
-/

namespace VerifiableMix

open VerifiableMix.Group Failure Sampler

variable {G : Group} {n w : Nat}

/-! ## Permutations -/

namespace Permutation

/-- All choices can be drawn. -/
theorem exists_drawChoices_gives {places choices : List Nat}
    (hchoices : List.Forall₂ (fun place choice => choice ≤ place) places choices)
    (hplaces : ∀ place ∈ places, place < UInt64.size) :
    ∃ tape, Gives (drawChoices places) tape choices := by
  induction hchoices with
  | nil => exact ⟨[], Gives.pure _⟩
  | cons hchoice _ ih =>
      obtain ⟨hplace, hrest⟩ := List.forall_mem_cons.mp hplaces
      obtain ⟨tape, htape⟩ :=
        exists_below_gives (Nat.succ_le_of_lt hplace) (Nat.lt_succ_of_le hchoice)
      obtain ⟨tape', htape'⟩ := ih hrest
      exact ⟨_, htape.bind (htape'.map (_ :: ·))⟩

/-- Every permutation can be drawn. -/
theorem exists_sample_gives (psi : Permutation) (hsize : psi.size ≤ UInt64.size) :
    ∃ tape, Gives (sample psi.size) tape psi := by
  obtain ⟨choices, hchoices, himages⟩ := (existsUnique_choices_images psi).exists
  obtain ⟨tape, htape⟩ := exists_drawChoices_gives hchoices fun place hplace =>
    Nat.lt_of_lt_of_le (lt_of_mem_choicePlaces hplace) hsize
  exact ⟨_, htape.bind (Gives.lift (ofImages_eq_ok_iff.mpr himages.symm))⟩

end Permutation

/-! ## Coins -/

/-- All coins that fit can be drawn. -/
theorem Coins.exists_sample_gives {coins : Coins} (h : coins.Fits n w) :
    ∃ tape, Gives (Coins.sample n w) tape coins := by
  obtain ⟨tape₁, hnonces⟩ := exists_scalars_gives h.permutationNonces
  obtain ⟨tape₂, hb⟩ := exists_scalars_gives h.b
  obtain ⟨tape₃, hbeta⟩ := exists_scalars_gives h.beta
  obtain ⟨tape₄, hepsilon⟩ := exists_scalars_gives h.epsilon
  obtain ⟨tape₅, hphi⟩ := exists_scalars_gives h.phi
  have halpha := scalar_gives coins.alpha
  have hgamma := scalar_gives coins.gamma
  have hdelta := scalar_gives coins.delta
  exact ⟨_, hnonces.bind (hb.bind (halpha.bind (hbeta.bind (hgamma.bind (hdelta.bind
    (hepsilon.bind (hphi.bind (Gives.pure _))))))))⟩

namespace Draws

/-- The draws have the sizes for `n` rows of a width. -/
structure Fits (draws : Draws) (n w : Nat) : Prop where
  size_eq : draws.psi.size = n
  rows_eq : draws.nonces.rows = n
  cols_eq : draws.nonces.cols = w
  coins : draws.coins.Fits n w

/-- What is drawn fits. -/
theorem sample_ensures (n w : Nat) : Ensures (Draws.sample n w) (·.Fits n w) := by
  refine (Permutation.sample_ensures n).bind fun psi hpsi => ?_
  refine (matrix_ensures n w).bind fun nonces hnonces => ?_
  refine (Coins.sample_ensures n w).bind fun coins hcoins => ?_
  exact Ensures.pure ⟨hpsi, hnonces.1, hnonces.2, hcoins⟩

/-- All that fits can be drawn. -/
theorem exists_sample_gives {draws : Draws} (h : draws.Fits n w) (hn : n ≤ UInt64.size) :
    ∃ tape, Gives (Draws.sample n w) tape draws := by
  obtain ⟨psi, nonces, coins⟩ := draws
  obtain ⟨rfl, hrows, rfl, hcoins⟩ := h
  obtain ⟨tape, hpsi⟩ := psi.exists_sample_gives hn
  obtain ⟨tape', hnonces⟩ := exists_matrix_gives nonces
  obtain ⟨tape'', hcoins⟩ := Coins.exists_sample_gives hcoins
  rw [hrows] at hnonces
  exact ⟨_, hpsi.bind (hnonces.bind (hcoins.bind (Gives.pure _)))⟩

end Draws

/-! ## Drawing first -/

/-- A permutation and nonces that fit shuffle rows of any elements, and the prover takes
the output. -/
theorem exists_ofShuffle (engine : Engine) (mixName : String) (pk : PublicKey) {rows : List Row}
    (hwidth : rowWidth rows = .ok w) {psi : Permutation} {nonces : ScalarMatrix}
    (hpsi : psi.size = rows.length) (hrows : nonces.rows = rows.length) (hcols : nonces.cols = w) :
    ∃ shuffle P, Shuffle.create G rows pk psi nonces = .ok shuffle ∧
      Prover.ofShuffle engine G mixName pk rows shuffle = .ok P ∧
      P.sampleCoins = Coins.sample rows.length w := by
  obtain ⟨n, R, hw, rfl⟩ := exists_rowsOf_of_rowWidth hwidth
  subst hcols
  rw [length_rowsOf] at hpsi hrows
  have hcreate := Shuffle.create_rowsOf (G := G) hw R pk psi nonces hpsi hrows rfl
  refine ⟨_, _, hcreate, Prover.create_eq_ok_iff_shape.mpr ⟨hwidth, ?_, ?_, ?_, ?_, rfl⟩, rfl⟩
  · rw [length_rowsOf, length_rowsOf]
  · exact rowWidth_rowsOf hw _
  · rw [length_rowsOf, hpsi]
  · rw [length_rowsOf, hrows]

/-- Shuffling with proof draws first and computes afterwards. -/
theorem shuffleAndProve_eq (O : Oracle) (engine : Engine) (G : Group) (mixName : String)
    (pk : PublicKey) (rows : List Row) :
    shuffleAndProve O engine G mixName pk rows = (do
      let width ← liftM (rowWidth rows)
      let draws ← Draws.sample rows.length width
      liftM (proveShuffle O engine G mixName pk rows draws)) := by
  rw [shuffleAndProve, Shuffle.sample]
  cases hwidth : rowWidth rows with
  | error error => rfl
  | ok width =>
      simp only [Draws.sample, liftM_ok, bind_assoc, pure_bind]
      refine (Permutation.sample_ensures rows.length).bind_congr fun psi hpsi => ?_
      refine (matrix_ensures rows.length width).bind_congr fun nonces hnonces => ?_
      -- what has been drawn so far fits, so the shuffle and the prover are there
      obtain ⟨shuffle, P, hcreate, hprover, hcoins⟩ :=
        exists_ofShuffle (G := G) engine mixName pk hwidth hpsi hnonces.1 hnonces.2
      have hprove : ∀ coins, proveShuffle O engine G mixName pk rows ⟨psi, nonces, coins⟩ =
          (fun proof => (shuffle.mixed, proof)) <$> P.prove O coins := by
        intro coins
        rw [proveShuffle, hcreate, ok_bind, hprover, ok_bind]
        rfl
      simp only [hcreate, hprover, liftM_ok, pure_bind, hcoins, hprove, liftM_map]
      rfl

end VerifiableMix
