import VerifiableMix.Proofs.Proof.Prover
import VerifiableMix.Proofs.Proof.Totality

/-!
# Proving is total

The prover checks shapes only: its rows, its mixed rows and its key can hold any
elements, and the mixed rows need not have to do with the rows.  The shapes are enough
for every step of both rounds, since what the prover makes itself has the same shapes.

Two parts of the first message are computed in closed form, from the running exponents
`x` and `y`, so that no entry waits for the one before.  Both agree with the definition
entry by entry: the bridges with going link by link, and their masks with
`B'ᵢ = g ^ βᵢ * Bᵢ₋₁ ^ εᵢ`.

## Main results

* `Prover.bridgeMasks_eq_stepwise` — the masks of the bridges in two ways.
* `Prover.exists_commit` — the first round, whatever the statement holds.
* `Prover.prove_total` — both rounds, and the lengths of the proof.
-/

namespace VerifiableMix

open VerifiableMix.Group Failure ScalarVector

variable {G : Group} {n w : Nat}

namespace Prover

/-- The masks of the bridges, each made of the bridge before: `B'ᵢ = g ^ βᵢ * Bᵢ₋₁ ^ εᵢ`
with `B₋₁ = h₀`. -/
def stepwiseMasks (G : Group) (h0 : Element) (bridges : ElementVector)
    (beta epsilon : ScalarVector) : ElementVector :=
  List.zipWith (fun previous (b, e) => G.mul (G.gpow b) (G.pow previous e)) (h0 :: bridges)
    (beta.zip epsilon)

/-- What is computed in closed form in the first round agrees with going entry by
entry. -/
structure ClosedFormsAgree {O : Oracle} (G : Group) (gens : Generators) (coins : Coins)
    (state : ProverState O) : Prop where
  /-- The bridges are the chain that is made from the running exponents. -/
  bridges : CommitmentChain.create G gens.h0 state.weights coins.b =
    .ok ⟨state.commitment.bridges, coins.b⟩
  /-- The same link by link. -/
  bridges_stepwise :
    CommitmentChain.links G gens.h0 state.weights coins.b = .ok state.commitment.bridges
  /-- The masks are made from the running exponents before. -/
  masks : ∃ xs ys, CommitmentChain.runningExponents state.weights coins.b = .ok (xs, ys) ∧
    state.commitment.bridgeMasks = bridgeMasks G gens.h0 xs ys coins.beta coins.epsilon
  /-- The same from the bridges before. -/
  masks_stepwise : state.commitment.bridgeMasks =
    stepwiseMasks G gens.h0 state.commitment.bridges coins.beta coins.epsilon

/-- The masks of the bridges in closed form are those that the bridges give. -/
theorem bridgeMasks_eq_stepwise (h0 : Member G) (x y beta epsilon : Fin n → Scalar) :
    bridgeMasks G h0.element (List.ofFn x) (List.ofFn y) (List.ofFn beta) (List.ofFn epsilon) =
      stepwiseMasks G h0.element (elements (CommitmentChain.closedForm h0 x y))
        (List.ofFn beta) (List.ofFn epsilon) := by
  rw [bridgeMasks_ofFn, stepwiseMasks, List.zip_eq_zipWith, zipWith_ofFn, elements, elements,
    zipWith_cons_ofFn]
  refine congrArg List.ofFn (funext fun i => ?_)
  show _ = G.mul (G.gpow (beta i)) (G.pow (previous h0.element (fun j =>
    (CommitmentChain.closedForm h0 x y j).element) i) (epsilon i))
  rw [← map_previous Member.element, Member.gpow_eq, Member.pow_element, Member.mul_element]

/-- The mask of the rows needs only the shape of the mixed rows. -/
theorem exists_rowMask {P : Prover} {coins : Coins} (hmixed : rowWidth P.statement.mixed = .ok w)
    (hepsilon : coins.epsilon.length = P.statement.mixed.length) (hphi : coins.phi.length = w) :
    ∃ F, P.rowMask coins = .ok F ∧ F.length = w := by
  obtain ⟨columns, hcolumns, hwidth⟩ := P.engine.exists_columnPower (G := P.group) hmixed hepsilon
  have hlength : (Row.encryptZeroNeg P.group P.statement.pk coins.phi).length = columns.length := by
    rw [Row.encryptZeroNeg, List.length_map, hphi, hwidth]
  obtain ⟨F, hF, hcount⟩ := Row.exists_mul (G := P.group) hlength
  refine ⟨F, ?_, hcount.trans hwidth⟩
  rw [rowMask, hcolumns, ok_bind, hF]

/-! ## Both rounds -/

/-- Both rounds succeed whatever the statement holds, and both messages have the
lengths that the shape of the rows asks for. -/
theorem exists_commit (O : Oracle) (hp : G.p.Prime) {engine : Engine} {mixName : String}
    {s : Statement} {psi : Permutation} {nonces : ScalarMatrix} {P : Prover}
    (hP : create engine G mixName s psi nonces = .ok P) {gens : Generators}
    (hgens : Generators.deriveAll O G mixName none s.rows.length = .ok gens) {coins : Coins}
    (hcoins : coins.Fits s.rows.length nonces.cols) :
    ∃ state : ProverState O, P.commit O coins = .ok state ∧
      ClosedFormsAgree G gens coins state ∧
      ∀ v, ∃ reply, P.reply state v = .ok reply ∧
        ShuffleProof.HasShape ⟨mixName, state.commitment, reply⟩ s.rows.length nonces.cols := by
  obtain ⟨hwidth, hcount, hmixed, hpsi, hrows, rfl⟩ := create_eq_ok_iff_shape.mp hP
  obtain ⟨n, hn⟩ : ∃ n, s.rows.length = n + 1 :=
    Nat.exists_eq_succ_of_ne_zero fun hzero =>
      (rowWidth_eq_ok_iff.mp hwidth).1 (List.length_eq_zero_iff.mp hzero)
  rw [hn] at hcount hpsi hrows hgens hcoins ⊢
  obtain ⟨h0, x, rfl⟩ := Generators.exists_generatorsOf_of_deriveAll hp hgens
  obtain ⟨r, b, ρ, rfl⟩ := hcoins.exists_eq
  let P : Prover := { engine, group := G, mixName, statement := s, psi, nonces }
  let pi := psi.toPerm hpsi
  obtain ⟨e, t, he⟩ := exists_batchingVector O mixName (generatorsOf h0 x)
    (elements (PermutationCommitment.entries x pi.symm r)) hn
  obtain ⟨F, hF, hlength⟩ := P.exists_rowMask hmixed (hcoins.epsilon.trans hcount) hcoins.phi
  let weights : Fin (n + 1) → Scalar := fun j => e (pi.symm j)
  have hchain := CommitmentChain.isChain_closedForm h0 weights b
  have hmasks := bridgeMasks_ofFn h0 (accumulate 0 b weights) (accumulate 1 0 weights) ρ.2.1
    ρ.2.2.2.2.1
  refine ⟨_, P.commit_eq O hn hpsi rfl hgens r b ρ he hF, ?_, fun v => ?_⟩
  · exact
      { bridges := CommitmentChain.create_ofFn h0 weights b
        bridges_stepwise := CommitmentChain.links_eq hchain
        masks := ⟨_, _, CommitmentChain.runningExponents_ofFn weights b, hmasks.symm⟩
        masks_stepwise := hmasks.symm.trans (bridgeMasks_eq_stepwise h0 _ _ _ _) }
  · refine ⟨_, P.reply_eq hrows rfl _ rfl rfl rfl v, ?_⟩
    exact
      { u := length_elements _
        e := List.length_ofFn
        bridges := length_elements _
        bridgeMasks := length_elements _
        rowMask := hlength
        kB := List.length_ofFn
        kE := List.length_ofFn
        kF := List.length_ofFn }

/-- A prover that was created proves: it draws coins that fit, both rounds succeed with
all coins that fit and at every challenge, what is computed in closed form agrees with
going entry by entry, and the proof has the lengths that its verification asks for.
Neither the rows nor the key are checked, and the mixed rows can be any. -/
theorem prove_total (O : Oracle) (hp : G.p.Prime) {engine : Engine} {mixName : String}
    {s : Statement} {psi : Permutation} {nonces : ScalarMatrix} {P : Prover}
    (hP : create engine G mixName s psi nonces = .ok P) {gens : Generators}
    (hgens : Generators.deriveAll O G mixName none s.rows.length = .ok gens) :
    ∃ w, rowWidth s.rows = .ok w ∧
      Sampler.Ensures P.sampleCoins (·.Fits s.rows.length w) ∧
      ∀ coins : Coins, coins.Fits s.rows.length w →
        (∃ state : ProverState O, P.commit O coins = .ok state ∧
          ClosedFormsAgree G gens coins state ∧
          ∀ v, ∃ reply, P.reply state v = .ok reply ∧
            ShuffleProof.checkLengths ⟨mixName, state.commitment, reply⟩ s.rows.length w =
              .ok ()) ∧
        ∃ proof, P.prove O coins = .ok proof ∧ proof.checkLengths s.rows.length w = .ok () := by
  obtain ⟨hwidth, _, _, _, _, hprover⟩ := create_eq_ok_iff_shape.mp hP
  refine ⟨nonces.cols, hwidth, ?_, fun coins hcoins => ?_⟩
  · subst hprover
    exact Coins.sample_ensures s.rows.length nonces.cols
  · obtain ⟨state, hcommit, hagree, hreply⟩ := exists_commit O hp hP hgens hcoins
    constructor
    · refine ⟨state, hcommit, hagree, fun v => ?_⟩
      obtain ⟨reply, hrun, hshape⟩ := hreply v
      exact ⟨reply, hrun, ShuffleProof.checkLengths_eq_ok_iff.mpr hshape⟩
    · obtain ⟨reply, hrun, hshape⟩ := hreply (state.challenge P.group)
      refine ⟨⟨mixName, state.commitment, reply⟩, ?_,
        ShuffleProof.checkLengths_eq_ok_iff.mpr hshape⟩
      rw [prove, hcommit, ok_bind, hrun, ok_bind, hprover]
      rfl

/-- The elements can be no members at all, here zeros of no width. -/
theorem prove_total_zeros :
    let zero : Ciphertext := ⟨⟨0, 0⟩, ⟨0, 0⟩⟩
    ∃ P proof,
      create ⟨4, .windowed, 0⟩ Group.test "mix" ⟨⟨⟨0, 0⟩⟩, [[zero], [zero]], testRows⟩
        (Permutation.identity 2) ⟨2, 1, Vector.replicate _ 5⟩ = .ok P ∧
      P.prove Oracle.standard ⟨[1, 2], [3, 4], 5, [6, 7], 8, 9, [10, 11], [12]⟩ = .ok proof ∧
      proof.checkLengths 2 1 = .ok () := by
  intro zero
  obtain ⟨gens, hgens⟩ := Generators.exists_deriveAll_test
  let s : Statement := ⟨⟨⟨0, 0⟩⟩, [[zero], [zero]], testRows⟩
  have hP : create ⟨4, .windowed, 0⟩ Group.test "mix" s (Permutation.identity 2)
      ⟨2, 1, Vector.replicate _ 5⟩ =
        .ok ⟨⟨4, .windowed, 0⟩, Group.test, "mix", s, Permutation.identity 2,
          ⟨2, 1, Vector.replicate _ 5⟩⟩ := rfl
  obtain ⟨w, hwidth, _, hprove⟩ := prove_total Oracle.standard prime_testModulus hP hgens
  obtain rfl : 1 = w := Except.ok.inj hwidth
  obtain ⟨_, proof, hproof, hlengths⟩ :=
    hprove ⟨[1, 2], [3, 4], 5, [6, 7], 8, 9, [10, 11], [12]⟩ ⟨rfl, rfl, rfl, rfl, rfl⟩
  exact ⟨_, proof, hP, hproof, hlengths⟩

end Prover

end VerifiableMix
