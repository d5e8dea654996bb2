import VerifiableMix.Proofs.Draws
import VerifiableMix.Proofs.Proof.Verdict
import VerifiableMix.Proofs.Scalar.Prime

/-!
# A shuffle with proof is verified

Over a prime modulus the derived generators are members, so a prover of checked
rows is a session, and for the output of its own shuffle the defect is zero.
Nothing is asked of the oracle beyond the derivation of the generators, and the
engines of the two parties need not agree.

## Main results

* `exists_verified_proof` — every shuffle, all coins: the proof is accepted.
* `exists_proveShuffle` — the same for fixed draws.
* `shuffleAndProve_ensures` — from every source that does not starve its draws, shuffling
  with proof returns, and what it returns is verified.
* `exists_shuffleAndProve_gives` — every shuffle with its proof can come out.
* `verifyShuffle_accepts` — shuffling with proof gives what is verified.
-/

namespace VerifiableMix

open VerifiableMix.Group Failure

variable {G : Group} {n w : Nat}

/-! ## Every witness and all coins -/

/-- The proof of a shuffle of members is accepted. -/
theorem exists_verified_proof (O : Oracle) (hp : G.p.Prime) (hw : 0 < w) (pk : Member G)
    (R : Fin (n + 1) → Fin w → Cipher G) {mixName : String} {gens : Generators}
    (hgens : Generators.deriveAll O G mixName none (n + 1) = .ok gens)
    (proverEngine verifierEngine : Engine) {psi : Permutation} {nonces : ScalarMatrix}
    {coins : Coins} (hpsi : psi.size = n + 1) (hrows : nonces.rows = n + 1)
    (hcols : nonces.cols = w) (hcoins : coins.Fits (n + 1) w) :
    ∃ shuffle P proof,
      Shuffle.create G (rowSet R) ⟨pk.element⟩ psi nonces = .ok shuffle ∧
      Prover.ofShuffle proverEngine G mixName ⟨pk.element⟩ (rowSet R) shuffle = .ok P ∧
      P.prove O coins = .ok proof ∧
      verifyShuffle O verifierEngine G ⟨⟨pk.element⟩, rowSet R, shuffle.mixed⟩ proof =
        .ok .accepted := by
  obtain ⟨h0, x, rfl⟩ := Generators.exists_generatorsOf_of_deriveAll hp hgens
  obtain ⟨r, b, ρ, rfl⟩ := hcoins.exists_eq
  let pi := psi.toPerm hpsi
  let S := nonces.family hrows hcols
  let s : Session G n w :=
    { h0, generators := x, pk, rows := R, mixed := Shuffle.output pk R pi S, pi, nonces := S, r, b }
  obtain ⟨e, t, he⟩ := s.exists_batchingVector O mixName
  have hshuffle := Shuffle.create_rowSet pk hw R psi nonces hpsi hrows hcols
  have hcreate : Prover.create proverEngine G mixName s.statement psi nonces =
      .ok (s.prover proverEngine mixName psi nonces) :=
    (Prover.create_eq_ok_iff hw).mpr ⟨hpsi, hrows, hcols, rfl⟩
  have hprove := s.prove_eq e O hw proverEngine mixName psi nonces hpsi rfl hrows hcols rfl t
    hgens he ρ
  have hverifier : Verifier.create verifierEngine G s.statement =
      .ok ((s.relation e).verifier verifierEngine) :=
    Verifier.create_eq_ok_iff.mpr ⟨n, w, pk, R, s.mixed, hw, rfl, rfl⟩
  let d := s.exponents e (Fin.last n)
  let masks := (s.relation e).sides ρ
  let v := replyChallenge O G t ((s.relation e).commitment d masks)
  have hverify := Verifier.verify_eq O (s.relation e) verifierEngine mixName d masks
    (v • s.opening e + ρ) t hgens he
  refine ⟨_, _, _, hshuffle, hcreate, hprove, ?_⟩
  show (Verifier.create verifierEngine G s.statement >>= fun V => V.verify O _) = _
  rw [hverifier, ok_bind]
  exact hverify.trans (s.checkEquations_of_honest e hw verifierEngine d rfl ρ v)

/-! ## Drawing -/

section Drawing

variable (O : Oracle) (hp : G.p.Prime) (hw : 0 < w) (pk : Member G)
  (R : Fin (n + 1) → Fin w → Cipher G) {mixName : String} {gens : Generators}
  (hgens : Generators.deriveAll O G mixName none (n + 1) = .ok gens)
  (proverEngine verifierEngine : Engine)

include hp hw hgens

/-- Draws that fit give a shuffle and its proof, which is verified. -/
theorem exists_proveShuffle {draws : Draws} (h : draws.Fits (n + 1) w) :
    ∃ shuffle proof,
      Shuffle.create G (rowSet R) ⟨pk.element⟩ draws.psi draws.nonces = .ok shuffle ∧
      proveShuffle O proverEngine G mixName ⟨pk.element⟩ (rowSet R) draws =
        .ok (shuffle.mixed, proof) ∧
      verifyShuffle O verifierEngine G ⟨⟨pk.element⟩, rowSet R, shuffle.mixed⟩ proof =
        .ok .accepted := by
  obtain ⟨shuffle, P, proof, hcreate, hprover, hprove, haccepted⟩ :=
    exists_verified_proof O hp hw pk R hgens proverEngine verifierEngine h.size_eq h.rows_eq
      h.cols_eq h.coins
  refine ⟨shuffle, proof, hcreate, ?_, haccepted⟩
  rw [proveShuffle, hcreate, ok_bind, hprover, ok_bind, hprove]
  rfl

/-- Shuffling with proof gives what is verified, or the source starves its draws. -/
theorem shuffleAndProve_ensures :
    Sampler.Ensures (shuffleAndProve O proverEngine G mixName ⟨pk.element⟩ (rowSet R))
      fun output =>
        verifyShuffle O verifierEngine G ⟨⟨pk.element⟩, rowSet R, output.1⟩ output.2 =
          .ok .accepted := by
  rw [shuffleAndProve_eq, length_rowSet, rowWidth_rowSet hw R, Sampler.liftM_ok, pure_bind]
  refine (Draws.sample_ensures (n + 1) w).bind fun draws hdraws => ?_
  obtain ⟨_, _, _, hprove, haccepted⟩ :=
    exists_proveShuffle O hp hw pk R hgens proverEngine verifierEngine hdraws
  exact Sampler.Ensures.lift hprove haccepted

/-- The shuffle with any permutation and nonces can come out, proved with any coins. -/
theorem exists_shuffleAndProve_gives (hn : n + 1 ≤ UInt64.size) {draws : Draws}
    (h : draws.Fits (n + 1) w) :
    ∃ tape shuffle proof,
      Shuffle.create G (rowSet R) ⟨pk.element⟩ draws.psi draws.nonces = .ok shuffle ∧
      Sampler.Gives (shuffleAndProve O proverEngine G mixName ⟨pk.element⟩ (rowSet R)) tape
        (shuffle.mixed, proof) := by
  obtain ⟨tape, htape⟩ := Draws.exists_sample_gives h hn
  obtain ⟨shuffle, proof, hcreate, hprove, _⟩ :=
    exists_proveShuffle O hp hw pk R hgens proverEngine proverEngine h
  refine ⟨tape ++ [], shuffle, proof, hcreate, ?_⟩
  rw [shuffleAndProve_eq, length_rowSet, rowWidth_rowSet hw R, Sampler.liftM_ok, pure_bind]
  exact htape.bind (Sampler.Gives.lift hprove)

end Drawing

/-! ## The protocol -/

/-- A shuffle of checked rows succeeds, its proof succeeds, and it is verified,
whatever the witness, the coins and the engines are; hence shuffling with proof
gives what is verified, unless the draws give up. -/
theorem verifyShuffle_accepts (O : Oracle) (hp : G.p.Prime) {pk : PublicKey} {rows : List Row}
    (hpk : G.checkElement pk.key = .ok ()) (hrows : rows ≠ []) (hw : 0 < w)
    (hwidth : ∀ row ∈ rows, row.length = w) (hmembers : ∀ row ∈ rows, row.validate G = .ok ())
    {mixName : String} {gens : Generators}
    (hgens : Generators.deriveAll O G mixName none rows.length = .ok gens)
    (proverEngine verifierEngine : Engine) :
    (∀ (psi : Permutation) (nonces : ScalarMatrix) (coins : Coins), psi.size = rows.length →
      nonces.rows = rows.length → nonces.cols = w → coins.Fits rows.length w →
      ∃ shuffle P proof,
        Shuffle.create G rows pk psi nonces = .ok shuffle ∧
        Prover.ofShuffle proverEngine G mixName pk rows shuffle = .ok P ∧
        P.prove O coins = .ok proof ∧
        verifyShuffle O verifierEngine G ⟨pk, rows, shuffle.mixed⟩ proof = .ok .accepted) ∧
    ∀ source : ByteSource,
      (∃ mixed proof,
        ((shuffleAndProve O proverEngine G mixName pk rows).run.run source).1 =
          .ok (mixed, proof) ∧
        verifyShuffle O verifierEngine G ⟨pk, rows, mixed⟩ proof = .ok .accepted) ∨
      ((shuffleAndProve O proverEngine G mixName pk rows).run.run source).1 =
        .error .samplingExhausted := by
  obtain ⟨n, R, _, rfl⟩ :=
    exists_rowSet_of_rowWidth (rowWidth_eq_ok_iff.mpr ⟨hrows, hw, hwidth⟩) hmembers
  let key : Member G := ⟨pk.key, checkElement_eq_ok_iff.mp hpk⟩
  rw [length_rowSet] at hgens ⊢
  constructor
  · intro psi nonces coins hpsi hcount hcols hcoins
    exact exists_verified_proof O hp hw key R hgens proverEngine verifierEngine hpsi hcount hcols
      hcoins
  · intro source
    have hensures := shuffleAndProve_ensures O hp hw key R hgens proverEngine verifierEngine
    rcases hensures.ok_or_exhausted source with ⟨⟨mixed, proof⟩, hrun, haccepted⟩ | hexhausted
    · exact .inl ⟨mixed, proof, hrun, haccepted⟩
    · exact .inr hexhausted

/-- Two rows change places, and the proof is verified by the other backend. -/
theorem verifyShuffle_accepts_swap :
    ∃ shuffle P proof,
      Shuffle.create Group.test testRows ⟨Group.test.generator⟩
        ⟨2, #v[1, 0], #v[1, 0], by decide, by decide⟩ ⟨2, 1, Vector.replicate _ 5⟩ = .ok shuffle ∧
      Prover.ofShuffle ⟨1, .direct, 0⟩ Group.test "mix" ⟨Group.test.generator⟩ testRows shuffle =
        .ok P ∧
      P.prove Oracle.standard ⟨[1, 2], [3, 4], 5, [6, 7], 8, 9, [10, 11], [12]⟩ = .ok proof ∧
      verifyShuffle Oracle.standard ⟨4, .windowed, 0⟩ Group.test
        ⟨⟨Group.test.generator⟩, testRows, shuffle.mixed⟩ proof = .ok .accepted := by
  obtain ⟨gens, hgens⟩ := Generators.exists_deriveAll_test
  have hpk : Group.test.checkElement Group.test.generator = .ok () :=
    checkElement_eq_ok_iff.mpr (Member.generator Group.test).isMember
  exact (verifyShuffle_accepts Oracle.standard prime_testModulus hpk (by decide) Nat.one_pos
    length_of_mem_testRows validate_testRows hgens ⟨1, .direct, 0⟩ ⟨4, .windowed, 0⟩).1
    _ _ _ rfl rfl rfl ⟨rfl, rfl, rfl, rfl, rfl⟩

end VerifiableMix
