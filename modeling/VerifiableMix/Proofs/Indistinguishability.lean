import VerifiableMix.Proofs.Proof.Prover
import VerifiableMix.Proofs.Scalar.Prime

/-!
# A proof fits every witness

Two witnesses with the same output cannot be told apart by the proof: whatever
coins the prover of one uses, the prover of the other has coins with which it
returns the same proof.

The generators are powers of `g`, so every commitment opens to everything.  The
coins are matched in the order of the protocol.  The nonces of the commitments
to the permutation are shifted by the difference of two logarithms; with the
same commitments the oracle gives the same batching vector.  The nonces of the
bridges are then read off the logarithms of the bridges.  Now both provers hold
openings of one relation, and the masks of one are shifted by `v` times the
difference of the two.

## Main results

* `Session.commitments_twin`, `Session.bridges_twin` — the nonces of the twin.
* `Session.prove_twin` — both sessions return one proof.
* `exists_coins_with_same_proof` — the same for the provers of two shuffles.
-/

namespace VerifiableMix

open VerifiableMix.Group Failure ScalarVector

variable {G : Group} {n w : Nat}

namespace Session

/-! ## The twin of a session -/

/-- A session with another witness and other nonces. -/
def withWitness (s : Session G n w) (pi : Equiv.Perm (Fin (n + 1)))
    (nonces : Fin (n + 1) → Fin w → Scalar) (r b : Fin (n + 1) → Scalar) : Session G n w :=
  { s with pi, nonces, r, b }

/-- The nonces with which another permutation has the same commitments, for
generators with logarithms `η`. -/
def twinNonces (s : Session G n w) (η : Fin (n + 1) → Scalar) (pi : Equiv.Perm (Fin (n + 1))) :
    Fin (n + 1) → Scalar :=
  fun j => s.r j + η (s.pi j) - η (pi j)

/-- The logarithms of the bridges, for a base with logarithm `ζ`. -/
def bridgeLogs (s : Session G n w) (ζ : Scalar) (e : Fin (n + 1) → Scalar) :
    Fin (n + 1) → Scalar :=
  fun i => s.exponents e i + accumulate 1 0 (s.weights e) i * ζ

/-- The nonces with which other weights have the same bridges. -/
def twinBridgeNonces (s : Session G n w) (ζ : Scalar) (e : Fin (n + 1) → Scalar)
    (pi : Equiv.Perm (Fin (n + 1))) : Fin (n + 1) → Scalar :=
  fun i => s.bridgeLogs ζ e i - e (pi.symm i) * previous ζ (s.bridgeLogs ζ e) i

variable (s : Session G n w) (pi : Equiv.Perm (Fin (n + 1))) (S : Fin (n + 1) → Fin w → Scalar)

theorem commitments_twin {η : Fin (n + 1) → Scalar}
    (hη : ∀ i, s.generators i = η i • Member.generator G) (b : Fin (n + 1) → Scalar) :
    (s.withWitness pi S (s.twinNonces η pi) b).commitments = s.commitments := by
  funext j
  show s.twinNonces η pi j • Member.generator G + s.generators (pi j) =
    s.r j • Member.generator G + s.generators (s.pi j)
  rw [hη, hη, ← add_smul, ← add_smul, twinNonces, sub_add_cancel]

/-- The bridges are powers of the generator. -/
theorem bridges_eq_logs {ζ : Scalar} (hζ : s.h0 = ζ • Member.generator G)
    (e : Fin (n + 1) → Scalar) (i : Fin (n + 1)) :
    s.bridges e i = s.bridgeLogs ζ e i • Member.generator G := by
  rw [bridges, CommitmentChain.closedForm, bridgeLogs, hζ, smul_smul, ← add_smul]

theorem previous_bridges {ζ : Scalar} (hζ : s.h0 = ζ • Member.generator G)
    (e : Fin (n + 1) → Scalar) (i : Fin (n + 1)) :
    previous s.h0 (s.bridges e) i = previous ζ (s.bridgeLogs ζ e) i • Member.generator G := by
  cases i using Fin.cases with
  | zero => exact hζ
  | succ i => rw [previous_succ, previous_succ, s.bridges_eq_logs hζ]

theorem bridges_twin {ζ : Scalar} (hζ : s.h0 = ζ • Member.generator G)
    (e r : Fin (n + 1) → Scalar) :
    (s.withWitness pi S r (s.twinBridgeNonces ζ e pi)).bridges e = s.bridges e := by
  have htwin := (s.withWitness pi S r (s.twinBridgeNonces ζ e pi)).isChain_bridges e
  refine CommitmentChain.isChain_unique htwin fun i => ?_
  show s.bridges e i = s.twinBridgeNonces ζ e pi i • Member.generator G +
    e (pi.symm i) • previous s.h0 (s.bridges e) i
  rw [s.bridges_eq_logs hζ, s.previous_bridges hζ, smul_smul, ← add_smul, twinBridgeNonces,
    sub_add_cancel]

/-- The published exponent is determined by the bridges. -/
theorem exponent_twin (s' : Session G n w) (e : Fin (n + 1) → Scalar) (hbase : s'.h0 = s.h0)
    (hbridges : s'.bridges e = s.bridges e) :
    s'.exponents e (Fin.last n) = s.exponents e (Fin.last n) := by
  apply Member.smul_generator_injective (G := G)
  show s'.exponents e (Fin.last n) • Member.generator G =
    s.exponents e (Fin.last n) • Member.generator G
  rw [← s'.last_bridge e, ← s.last_bridge e, hbase, hbridges]

/-! ## One proof -/

/-- The exponents of the masks of the twin. -/
def twinMasks (s s' : Session G n w) (e : Fin (n + 1) → Scalar) (v : Scalar)
    (ρ : Opening (n + 1) w) : Opening (n + 1) w :=
  v • s.opening e + ρ - v • s'.opening e

/-- The masks of the twin are the same elements. -/
theorem sides_twinMasks {s s' : Session G n w} {e : Fin (n + 1) → Scalar}
    (hrelation : s'.relation e = s.relation e) (h : s.mixed = s.honest)
    (h' : s'.mixed = s'.honest) (v : Scalar) (ρ : Opening (n + 1) w) :
    (s.relation e).sides (s.twinMasks s' e v ρ) = (s.relation e).sides ρ := by
  have hω := s.sides_opening e h
  have hω' := s'.sides_opening e h'
  rw [hrelation] at hω'
  exact LinearRelation.masks_eq _ hω hω' v ρ

/-- The prover of another witness for the same rows returns the same proof. -/
theorem prove_twin (O : Oracle) (hw : 0 < w) (mixName : String) (s : Session G n w) {ζ : Scalar}
    {η : Fin (n + 1) → Scalar} (hζ : s.h0 = ζ • Member.generator G)
    (hη : ∀ i, s.generators i = η i • Member.generator G)
    (hgens : Generators.deriveAll O G mixName none (n + 1) = .ok s.derived)
    {psi psi' : Permutation} {nonces nonces' : ScalarMatrix} (hpsi : psi.size = n + 1)
    (hpi : s.pi = psi.toPerm hpsi) (hrows : nonces.rows = n + 1) (hcols : nonces.cols = w)
    (hnonces : s.nonces = nonces.family hrows hcols) (hpsi' : psi'.size = n + 1)
    (hrows' : nonces'.rows = n + 1) (hcols' : nonces'.cols = w) (h : s.mixed = s.honest)
    (h' : s.mixed =
      Shuffle.output s.pk s.rows (psi'.toPerm hpsi') (nonces'.family hrows' hcols'))
    (engine engine' : Engine) (ρ : Opening (n + 1) w) :
    ∃ coins' proof, coins'.Fits (n + 1) w ∧
      (s.prover engine mixName psi nonces).prove O (Coins.ofFamilies s.r s.b ρ) = .ok proof ∧
      (s.prover engine' mixName psi' nonces').prove O coins' = .ok proof := by
  obtain ⟨e, t, he⟩ := s.exists_batchingVector O mixName
  let pi' := psi'.toPerm hpsi'
  let s' := s.withWitness pi' (nonces'.family hrows' hcols') (s.twinNonces η pi')
    (s.twinBridgeNonces ζ e pi')
  have hcommitments : s'.commitments = s.commitments :=
    s.commitments_twin pi' _ hη (s.twinBridgeNonces ζ e pi')
  have hbridges : s'.bridges e = s.bridges e :=
    s.bridges_twin pi' _ hζ e (s.twinNonces η pi')
  have hrelation : s'.relation e = s.relation e := by
    rw [relation, hcommitments, hbridges]
    rfl
  have hexponent := s.exponent_twin s' e rfl hbridges
  -- Equal commitments make equal statements to the oracle, so both draw one batching vector.
  have he' : batchingVector O G mixName s'.derived (elements s'.commitments) s'.statement =
      (List.ofFn e, t) := by
    rw [hcommitments]
    exact he
  -- Both hold openings of one relation, and what they differ by goes into the masks.
  let v := replyChallenge O G t
    ((s.relation e).commitment (s.exponents e (Fin.last n)) ((s.relation e).sides ρ))
  let ρ' := s.twinMasks s' e v ρ
  have hmasks : (s.relation e).sides ρ' = (s.relation e).sides ρ :=
    sides_twinMasks hrelation h h' v ρ
  have hreply : v • s'.opening e + ρ' = v • s.opening e + ρ := add_sub_cancel _ _
  have hprove := s.prove_eq e O hw engine mixName psi nonces hpsi hpi hrows hcols hnonces t hgens
    he ρ
  have hprove' := s'.prove_eq e O hw engine' mixName psi' nonces' hpsi' rfl hrows' hcols' rfl t
    hgens he' ρ'
  rw [hrelation, hexponent, hmasks] at hprove'
  refine ⟨Coins.ofFamilies s'.r s'.b ρ', _, Coins.fits_ofFamilies _ _ _, hprove,
    hprove'.trans ?_⟩
  show Except.ok (ShuffleProof.mk mixName _ (Opening.reply (v • s'.opening e + ρ'))) = _
  rw [hreply]

end Session

/-! ## The provers of two shuffles -/

/-- For the prover of another witness of the same output there are coins with
which it returns the same proof. -/
theorem exists_coins_with_same_proof (O : Oracle) {pk : PublicKey} {rows : List Row}
    (hpk : G.checkElement pk.key = .ok ()) (hmembers : ∀ row ∈ rows, row.validate G = .ok ())
    {mixName : String} {gens : Generators}
    (hgens : Generators.deriveAll O G mixName none rows.length = .ok gens)
    (hbase : ∃ k, gens.h0 = G.gpow k) (hpowers : ∀ x ∈ gens.rows, ∃ k, x = G.gpow k)
    {psi psi' : Permutation} {nonces nonces' : ScalarMatrix} {shuffle shuffle' : Shuffle}
    (hshuffle : Shuffle.create G rows pk psi nonces = .ok shuffle)
    (hshuffle' : Shuffle.create G rows pk psi' nonces' = .ok shuffle')
    (hmixed : shuffle.mixed = shuffle'.mixed) (engine engine' : Engine) :
    ∃ P P', Prover.ofShuffle engine G mixName pk rows shuffle = .ok P ∧
      Prover.ofShuffle engine' G mixName pk rows shuffle' = .ok P' ∧
      ∀ coins : Coins, coins.Fits rows.length nonces.cols →
        ∃ coins' proof, coins'.Fits rows.length nonces.cols ∧
          P.prove O coins = .ok proof ∧ P'.prove O coins' = .ok proof := by
  obtain ⟨hwidth, hpsi, hrows⟩ := Shuffle.shape_of_create hshuffle
  obtain ⟨hwidth', hpsi', hrows'⟩ := Shuffle.shape_of_create hshuffle'
  have hcols : nonces'.cols = nonces.cols := Except.ok.inj (hwidth'.symm.trans hwidth)
  obtain ⟨n, R, hw, rfl⟩ := exists_rowSet_of_rowWidth hwidth hmembers
  rw [length_rowSet] at hgens hpsi hrows hpsi' hrows' ⊢
  obtain ⟨key⟩ := pk
  let pk : Member G := ⟨key, checkElement_eq_ok_iff.mp hpk⟩
  obtain ⟨ζ, η, rfl⟩ := Generators.exists_logs (Generators.length_of_deriveAll hgens) hbase hpowers
  let pi := psi.toPerm hpsi
  let pi' := psi'.toPerm hpsi'
  let S := nonces.family hrows rfl
  let S' := nonces'.family hrows' hcols
  let M := Shuffle.output pk R pi S
  obtain rfl := Except.ok.inj
    (hshuffle.symm.trans (Shuffle.create_rowSet pk hw R psi nonces hpsi hrows rfl))
  obtain rfl := Except.ok.inj
    (hshuffle'.symm.trans (Shuffle.create_rowSet pk hw R psi' nonces' hpsi' hrows' hcols))
  have houtput : M = Shuffle.output pk R pi' S' := rowSet_injective hmixed
  have hprover : Prover.create engine G mixName (statementOf pk R M) psi nonces =
      .ok ⟨engine, G, mixName, statementOf pk R M, psi, nonces⟩ :=
    (Prover.create_eq_ok_iff hw).mpr ⟨hpsi, hrows, rfl, rfl⟩
  have hprover' : Prover.create engine' G mixName
      (statementOf pk R (Shuffle.output pk R pi' S')) psi' nonces' =
      .ok ⟨engine', G, mixName, statementOf pk R M, psi', nonces'⟩ := by
    rw [← houtput]
    exact (Prover.create_eq_ok_iff hw).mpr ⟨hpsi', hrows', hcols, rfl⟩
  refine ⟨_, _, hprover, hprover', fun coins hcoins => ?_⟩
  obtain ⟨r, b, ρ, rfl⟩ := hcoins.exists_eq
  let s : Session G n nonces.cols :=
    { h0 := ζ • Member.generator G, generators := fun i => η i • Member.generator G, pk, rows := R
      mixed := M, pi, nonces := S, r, b }
  have hζ : s.h0 = ζ • Member.generator G := rfl
  have hη : ∀ i, s.generators i = η i • Member.generator G := fun _ => rfl
  have hderived : Generators.deriveAll O G mixName none (n + 1) = .ok s.derived := hgens
  have h : s.mixed = s.honest := rfl
  exact s.prove_twin O hw mixName hζ hη hderived hpsi rfl hrows rfl rfl hpsi' hrows' hcols h
    houtput engine engine' ρ

/-- For two equal rows it cannot be seen whether they changed places. -/
theorem exists_coins_with_same_proof_swap :
    ∃ shuffle shuffle' P P' coins' proof,
      Shuffle.create Group.test testRows ⟨Group.test.generator⟩ (Permutation.identity 2)
        ⟨2, 1, Vector.replicate _ 0⟩ = .ok shuffle ∧
      Shuffle.create Group.test testRows ⟨Group.test.generator⟩
        ⟨2, #v[1, 0], #v[1, 0], by decide, by decide⟩ ⟨2, 1, Vector.replicate _ 0⟩ =
        .ok shuffle' ∧
      Prover.ofShuffle ⟨1, .direct, 0⟩ Group.test "mix" ⟨Group.test.generator⟩ testRows shuffle =
        .ok P ∧
      Prover.ofShuffle ⟨1, .direct, 0⟩ Group.test "mix" ⟨Group.test.generator⟩ testRows shuffle' =
        .ok P' ∧
      P.prove Oracle.standard ⟨[1, 2], [3, 4], 5, [6, 7], 8, 9, [10, 11], [12]⟩ = .ok proof ∧
      P'.prove Oracle.standard coins' = .ok proof := by
  obtain ⟨gens, hgens⟩ := Generators.exists_deriveAll_test
  obtain ⟨hbase, hpowers⟩ := Generators.exists_gpow_of_deriveAll prime_testModulus hgens
  let g := Member.generator Group.test
  let R : Fin 2 → Fin 1 → Cipher Group.test := fun _ _ => zeroBase g
  let nonces : ScalarMatrix := ⟨2, 1, Vector.replicate _ 0⟩
  have hpk : Group.test.checkElement Group.test.generator = .ok () :=
    checkElement_eq_ok_iff.mpr g.isMember
  have hsame : ∀ pi : Equiv.Perm (Fin 2), Shuffle.output g R pi (nonces.family rfl rfl) = R := by
    intro pi
    funext j k
    have hzero : nonces.family rfl rfl (pi.symm j) k = 0 := Vector.getElem_replicate _
    show R j k + nonces.family rfl rfl (pi.symm j) k • zeroBase g = R j k
    rw [hzero, zero_smul, add_zero]
  have hshuffle : ∀ (psi : Permutation) (hpsi : psi.size = 2),
      Shuffle.create Group.test testRows ⟨Group.test.generator⟩ psi nonces =
        .ok ⟨rowSet R, nonces, psi⟩ := by
    intro psi hpsi
    have hcreate := Shuffle.create_rowSet g Nat.one_pos R psi nonces hpsi rfl rfl
    rw [hsame] at hcreate
    exact hcreate
  have hidentity := hshuffle (Permutation.identity 2) rfl
  have hswap := hshuffle ⟨2, #v[1, 0], #v[1, 0], by decide, by decide⟩ rfl
  obtain ⟨P, P', hP, hP', htwin⟩ := exists_coins_with_same_proof Oracle.standard hpk
    validate_testRows hgens hbase hpowers hidentity hswap rfl ⟨1, .direct, 0⟩ ⟨1, .direct, 0⟩
  obtain ⟨coins', proof, _, hprove, hprove'⟩ :=
    htwin ⟨[1, 2], [3, 4], 5, [6, 7], 8, 9, [10, 11], [12]⟩ ⟨rfl, rfl, rfl, rfl, rfl⟩
  exact ⟨_, _, P, P', coins', proof, hidentity, hswap, hP, hP', hprove, hprove'⟩

end VerifiableMix
