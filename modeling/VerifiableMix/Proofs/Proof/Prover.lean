import VerifiableMix.Proof.Prover
import VerifiableMix.Proofs.Commitment.Chain
import VerifiableMix.Proofs.Commitment.Permutation
import VerifiableMix.Proofs.Proof.Verifier
import VerifiableMix.Proofs.Random.Sampler

/-!
# The prover opens the relation

A prover whose generators, key and rows are members is a *session*: families for
everything it knows.  Once the batching vector `e` is drawn, a session sets up a
relation and holds a candidate opening of it.  The coins that are left are the
exponents `ρ` of the masks, and the prover does what any prover of a linear
relation does: it masks with the image of `ρ` and replies `v • ω + ρ`.

Whether the candidate is an opening depends on the mixed rows alone, and on them
only in the last component.

## Main results

* `Prover.commit_eq`, `Prover.reply_eq` — both messages of a prover, whatever
  its statement holds.
* `Session.commit_eq`, `Session.reply_eq` — the same for the relation of a session.
* `Session.defect_eq` — by how much the candidate misses the target.
* `Session.sides_opening` — for the output of the shuffle it is an opening.
-/

namespace VerifiableMix

open VerifiableMix.Group Failure ScalarVector

variable {G : Group} {n w : Nat}

/-! ## Coins -/

/-- The coins have the lengths for `n` rows of a width. -/
structure Coins.Fits (coins : Coins) (n w : Nat) : Prop where
  permutationNonces : coins.permutationNonces.length = n
  b : coins.b.length = n
  beta : coins.beta.length = n
  epsilon : coins.epsilon.length = n
  phi : coins.phi.length = w

/-- The coins with given nonces and masks. -/
def Coins.ofFamilies (r b : Fin n → Scalar) (ρ : Opening n w) : Coins :=
  { permutationNonces := List.ofFn r
    b := List.ofFn b
    alpha := ρ.1
    beta := List.ofFn ρ.2.1
    gamma := ρ.2.2.1
    delta := ρ.2.2.2.1
    epsilon := List.ofFn ρ.2.2.2.2.1
    phi := List.ofFn ρ.2.2.2.2.2 }

theorem Coins.fits_ofFamilies (r b : Fin n → Scalar) (ρ : Opening n w) :
    (Coins.ofFamilies r b ρ).Fits n w := by
  constructor <;> exact List.length_ofFn

/-- Coins of the right lengths are families. -/
theorem Coins.Fits.exists_eq {coins : Coins} (h : coins.Fits n w) :
    ∃ (r b : Fin n → Scalar) (ρ : Opening n w), coins = Coins.ofFamilies r b ρ := by
  obtain ⟨nonces, b, alpha, beta, gamma, delta, epsilon, phi⟩ := coins
  obtain ⟨hnonces, hb, hbeta, hepsilon, hphi⟩ := h
  obtain ⟨r, rfl⟩ := exists_eq_ofFn hnonces
  obtain ⟨b, rfl⟩ := exists_eq_ofFn hb
  obtain ⟨beta, rfl⟩ := exists_eq_ofFn hbeta
  obtain ⟨epsilon, rfl⟩ := exists_eq_ofFn hepsilon
  obtain ⟨phi, rfl⟩ := exists_eq_ofFn hphi
  exact ⟨r, b, (alpha, beta, gamma, delta, epsilon, phi), rfl⟩

/-- The coins that are drawn fit. -/
theorem Coins.sample_ensures (n w : Nat) : Sampler.Ensures (Coins.sample n w) (·.Fits n w) := by
  refine (Sampler.scalars_ensures n).bind fun nonces hnonces => ?_
  refine (Sampler.scalars_ensures n).bind fun b hb => ?_
  refine Sampler.scalar_ensures.bind fun alpha _ => ?_
  refine (Sampler.scalars_ensures n).bind fun beta hbeta => ?_
  refine Sampler.scalar_ensures.bind fun gamma _ => ?_
  refine Sampler.scalar_ensures.bind fun delta _ => ?_
  refine (Sampler.scalars_ensures n).bind fun epsilon hepsilon => ?_
  refine (Sampler.scalars_ensures w).bind fun phi hphi => ?_
  exact Sampler.Ensures.pure ⟨hnonces, hb, hbeta, hepsilon, hphi⟩

/-! ## Challenges -/

theorem Oracle.length_challenges (O : Oracle) (t : O.State) (label : String) (count : Nat) :
    (O.challenges t label count).1.length = count := by
  induction count generalizing t with
  | zero => rfl
  | succ count ih =>
      show ((O.challenges (O.challenge t label).2 label count).1.length + 1) = count + 1
      rw [ih]

/-- The batching vector has one weight per row. -/
theorem exists_batchingVector (O : Oracle) (mixName : String) (gens : Generators)
    (u : ElementVector) {s : Statement} (hcount : s.rows.length = n) :
    ∃ (e : Fin n → Scalar) (t : O.State),
      batchingVector O G mixName gens u s = (List.ofFn e, t) := by
  have hlength : (batchingVector O G mixName gens u s).1.length = n := by
    rw [batchingVector, Oracle.length_challenges, hcount]
  obtain ⟨e, he⟩ := exists_eq_ofFn hlength
  exact ⟨e, _, Prod.ext he rfl⟩

/-! ## Statement and witness -/

/-- The prover takes a witness whose shape is that of the rows, and nothing else is
checked. -/
theorem Prover.create_eq_ok_iff_shape {engine : Engine} {mixName : String} {s : Statement}
    {psi : Permutation} {nonces : ScalarMatrix} {P : Prover} :
    create engine G mixName s psi nonces = .ok P ↔
      rowWidth s.rows = .ok nonces.cols ∧ s.rows.length = s.mixed.length ∧
        rowWidth s.mixed = .ok nonces.cols ∧ psi.size = s.rows.length ∧
        nonces.rows = s.rows.length ∧
        P = { engine, group := G, mixName, statement := s, psi, nonces } := by
  simp only [create, bind_eq_ok_iff, checkLength_eq_ok_iff, pure_eq_ok, Except.ok.injEq]
  constructor
  · rintro ⟨_, hrows, _, hcount, _, hmixed, _, rfl, _, hpsi, _, hnonces, _, rfl, rfl⟩
    exact ⟨hrows, hcount, hmixed, hpsi.symm, hnonces.symm, rfl⟩
  · rintro ⟨hrows, hcount, hmixed, hpsi, hnonces, rfl⟩
    exact ⟨_, hrows, (), hcount, _, hmixed, (), rfl, (), hpsi.symm, (), hnonces.symm, (), rfl, rfl⟩

theorem Prover.create_eq_ok_iff (hw : 0 < w) {engine : Engine} {mixName : String}
    {pk : Member G} {R M : Fin (n + 1) → Fin w → Cipher G} {psi : Permutation}
    {nonces : ScalarMatrix} {P : Prover} :
    create engine G mixName (statementOf pk R M) psi nonces = .ok P ↔
      psi.size = n + 1 ∧ nonces.rows = n + 1 ∧ nonces.cols = w ∧
        P = { engine, group := G, mixName, statement := statementOf pk R M, psi, nonces } := by
  have hrows := rowWidth_rowSet hw R
  have hmixed := rowWidth_rowSet hw M
  simp only [create_eq_ok_iff_shape, statementOf, hrows, hmixed, length_rowSet, Except.ok.injEq,
    true_and, eq_comm (b := nonces.cols)]
  tauto

/-! ## The two messages, for any statement -/

namespace Prover

/-- The masks of the bridges in closed form are those that the bridges give. -/
theorem bridgeMasks_ofFn (h0 : Member G) (x y beta epsilon : Fin n → Scalar) :
    bridgeMasks G h0.element (List.ofFn x) (List.ofFn y) (List.ofFn beta) (List.ofFn epsilon) =
      elements fun i => beta i • Member.generator G +
        epsilon i • previous h0 (CommitmentChain.closedForm h0 x y) i := by
  rw [bridgeMasks, shiftIn_ofFn, shiftIn_ofFn, List.zip_eq_zipWith, List.zip_eq_zipWith,
    zipWith_ofFn, zipWith_ofFn, zipWith_ofFn, elements]
  refine congrArg List.ofFn (funext fun i => ?_)
  show G.mul (G.gpow _) (G.pow h0.element _) = _
  rw [Member.gpow_eq, Member.pow_element, Member.mul_element,
    CommitmentChain.previous_closedForm]
  refine congrArg Member.element ?_
  module

/-- The first message of a prover, whatever its statement holds, when the
generators are members. -/
theorem commit_eq (O : Oracle) (P : Prover) {h0 : Member P.group}
    {x : Fin (n + 1) → Member P.group} (hcount : P.rowCount = n + 1) (hpsi : P.psi.size = n + 1)
    {pi : Equiv.Perm (Fin (n + 1))} (hpi : pi = P.psi.toPerm hpsi)
    (hgens : Generators.deriveAll O P.group P.mixName none (n + 1) = .ok (generatorsOf h0 x))
    (r b : Fin (n + 1) → Scalar) (ρ : Opening (n + 1) w) {e : Fin (n + 1) → Scalar} {t : O.State}
    (he : batchingVector O P.group P.mixName (generatorsOf h0 x)
      (elements (PermutationCommitment.entries x pi.symm r)) P.statement = (List.ofFn e, t))
    {F : Row} (hF : P.rowMask (Coins.ofFamilies r b ρ) = .ok F) :
    let weights : Fin (n + 1) → Scalar := fun j => e (pi.symm j)
    let xs := accumulate 0 b weights
    let B := CommitmentChain.closedForm h0 xs (accumulate 1 0 weights)
    P.commit O (Coins.ofFamilies r b ρ) =
      .ok { transcript := t
            commitment :=
              { u := elements (PermutationCommitment.entries x pi.symm r)
                d := xs (Fin.last n)
                e := List.ofFn e
                bridges := elements B
                maskA := (ρ.1 • Member.generator P.group + ∑ i, ρ.2.2.2.2.1 i • x i).element
                bridgeMasks := elements fun i =>
                  ρ.2.1 i • Member.generator P.group + ρ.2.2.2.2.1 i • previous h0 B i
                maskC := (ρ.2.2.1 • Member.generator P.group).element
                maskD := (ρ.2.2.2.1 • Member.generator P.group).element
                rowMask := F }
            weights := List.ofFn weights
            coins := Coins.ofFamilies r b ρ } := by
  subst hpi
  intro weights xs B
  have hcommitments : PermutationCommitment.create P.group P.psi.inverse (elements x)
      (List.ofFn r) = .ok
        ⟨elements (PermutationCommitment.entries x (P.psi.toPerm hpsi).symm r), List.ofFn r⟩ :=
    PermutationCommitment.create_elements P.psi.inverse hpsi x r
  have hweights : invert (List.ofFn e) P.psi = .ok (List.ofFn weights) :=
    invert_ofFn P.psi hpsi e
  have hchain := CommitmentChain.create_ofFn h0 weights b
  have hexponents := CommitmentChain.runningExponents_ofFn weights b
  have hlast := getLast?_ofFn (accumulate 0 b weights)
  have hgenerators := Engine.powerProduct_elements P.engine x ρ.2.2.2.2.1
  have hmasks := bridgeMasks_ofFn h0 xs (accumulate 1 0 weights) ρ.2.1 ρ.2.2.2.2.1
  -- The run, step by step; every step succeeds on families of one size.
  unfold commit
  dsimp only [generatorsOf, Coins.ofFamilies] at he hF ⊢
  simp only [hcount, hgens, generatorsOf, hcommitments, he, hweights, hchain, hexponents, hlast,
    hgenerators, hF, ok_bind]
  simp only [Member.gpow_eq, Member.mul_element, pure_eq_ok]
  rw [hmasks]

/-- The reply of a prover to a challenge `v`. -/
theorem reply_eq {O : Oracle} (P : Prover) (hrows : P.nonces.rows = n) (hcols : P.nonces.cols = w)
    (state : ProverState O) {r b e weights : Fin n → Scalar} {ρ : Opening n w}
    (hcoins : state.coins = Coins.ofFamilies r b ρ) (he : state.commitment.e = List.ofFn e)
    (hweights : state.weights = List.ofFn weights) (v : Scalar) :
    P.reply state v = .ok (Opening.reply (v • (∑ j, r j * e j, b, ∑ j, r j, state.commitment.d,
      weights, fun k => ∑ i, P.nonces.family hrows hcols i k * e i) + ρ)) := by
  have hmatrix := P.nonces.columnInnerProduct_ofFn hrows hcols e
  unfold reply
  simp only [hcoins, he, hweights, hmatrix, Coins.ofFamilies, innerProduct_ofFn, scaleAdd_ofFn,
    sum_ofFn, ok_bind, pure_eq_ok, mul_comm _ v]
  rfl

end Prover

/-! ## Sessions -/

/-- What a prover knows of `n + 1` rows, and its coins except those of the masks. -/
structure Session (G : Group) (n w : Nat) where
  h0 : Member G
  generators : Fin (n + 1) → Member G
  pk : Member G
  rows : Fin (n + 1) → Fin w → Cipher G
  mixed : Fin (n + 1) → Fin w → Cipher G
  /-- Where each input row goes. -/
  pi : Equiv.Perm (Fin (n + 1))
  /-- The re-encryption nonces, by input row. -/
  nonces : Fin (n + 1) → Fin w → Scalar
  /-- The nonces of the commitments to the permutation. -/
  r : Fin (n + 1) → Scalar
  /-- The nonces of the bridges. -/
  b : Fin (n + 1) → Scalar

namespace Session

/-- The batching vector, rearranged to the output. -/
def weights (s : Session G n w) (e : Fin (n + 1) → Scalar) : Fin (n + 1) → Scalar :=
  fun j => e (s.pi.symm j)

/-- The running exponents of `g` in the bridges. -/
def exponents (s : Session G n w) (e : Fin (n + 1) → Scalar) : Fin (n + 1) → Scalar :=
  accumulate 0 s.b (s.weights e)

/-- The bridges. -/
def bridges (s : Session G n w) (e : Fin (n + 1) → Scalar) : Fin (n + 1) → Member G :=
  CommitmentChain.closedForm s.h0 (s.exponents e) (accumulate 1 0 (s.weights e))

/-- The commitments to the permutation. -/
def commitments (s : Session G n w) : Fin (n + 1) → Member G :=
  PermutationCommitment.entries s.generators s.pi.symm s.r

/-- The relation that the prover sets up. -/
def relation (s : Session G n w) (e : Fin (n + 1) → Scalar) : Relation G (n + 1) w :=
  { h0 := s.h0
    generators := s.generators
    pk := s.pk
    rows := s.rows
    mixed := s.mixed
    u := s.commitments
    e
    bridges := s.bridges e }

/-- The candidate opening. -/
def opening (s : Session G n w) (e : Fin (n + 1) → Scalar) : Opening (n + 1) w :=
  (∑ j, s.r j * e j, s.b, ∑ j, s.r j, s.exponents e (Fin.last n), s.weights e,
    fun k => ∑ i, s.nonces i k * e i)

/-- The statement of the session. -/
def statement (s : Session G n w) : Statement :=
  statementOf s.pk s.rows s.mixed

/-- The generators of the session. -/
def derived (s : Session G n w) : Generators :=
  generatorsOf s.h0 s.generators

/-- The prover of the session, for the permutation and the matrix that hold the
witness. -/
def prover (s : Session G n w) (engine : Engine) (mixName : String) (psi : Permutation)
    (nonces : ScalarMatrix) : Prover :=
  { engine, group := G, mixName, statement := s.statement, psi, nonces }

/-- What the mixed rows should be. -/
def honest (s : Session G n w) : Fin (n + 1) → Fin w → Cipher G :=
  Shuffle.output s.pk s.rows s.pi s.nonces

/-- The batching vector of the session, from the transcript. -/
theorem exists_batchingVector (s : Session G n w) (O : Oracle) (mixName : String) :
    ∃ (e : Fin (n + 1) → Scalar) (t : O.State),
      batchingVector O G mixName s.derived (elements s.commitments) s.statement =
        (List.ofFn e, t) :=
  VerifiableMix.exists_batchingVector O mixName s.derived _ (length_rowSet s.rows)

/-! ## The defect of the candidate -/

variable (s : Session G n w) (e : Fin (n + 1) → Scalar)

theorem isChain_bridges : CommitmentChain.IsChain s.h0 (s.weights e) s.b (s.bridges e) :=
  CommitmentChain.isChain_closedForm s.h0 (s.weights e) s.b

/-- Rearranging leaves the product of the batching vector alone. -/
theorem prod_weights : ∏ j, s.weights e j = ∏ i, e i :=
  Equiv.prod_comp s.pi.symm e

theorem combination_commitments :
    ∑ j, e j • s.commitments j =
      (∑ j, s.r j * e j) • Member.generator G + ∑ i, s.weights e i • s.generators i :=
  PermutationCommitment.combination_entries s.generators s.pi.symm s.r e

theorem sum_commitments :
    ∑ j, s.commitments j - ∑ i, s.generators i = (∑ j, s.r j) • Member.generator G := by
  have h := PermutationCommitment.combination_entries s.generators s.pi.symm s.r fun _ => 1
  simp only [one_smul, mul_one] at h
  rw [commitments, h, add_sub_cancel_right]

theorem last_bridge :
    s.bridges e (Fin.last n) - (∏ i, e i) • s.h0 =
      s.exponents e (Fin.last n) • Member.generator G := by
  rw [bridges, CommitmentChain.last_eq, prod_weights, add_sub_cancel_right]

/-- The weighted rows, in the order of the output. -/
theorem combination_rows :
    ∑ i, e i • s.rows i =
      (fun k => -(∑ i, s.nonces i k * e i) • zeroBase s.pk) + ∑ j, s.weights e j • s.honest j := by
  have hreindex : ∑ j, s.weights e j • s.honest j =
      ∑ i, e i • (s.rows i + fun k => s.nonces i k • zeroBase s.pk) :=
    Equiv.sum_comp s.pi.symm fun i => e i • (s.rows i + fun k => s.nonces i k • zeroBase s.pk)
  have hnonces : ∑ i, e i • (fun k => s.nonces i k • zeroBase s.pk) =
      fun k => (∑ i, s.nonces i k * e i) • zeroBase s.pk := by
    ext1 k
    rw [Finset.sum_apply, Finset.sum_smul]
    refine Finset.sum_congr rfl fun i _ => ?_
    rw [Pi.smul_apply, smul_smul, mul_comm]
  rw [hreindex]
  simp only [smul_add, Finset.sum_add_distrib, hnonces]
  ext1 k
  simp only [Pi.add_apply]
  module

/-- By how much the candidate misses the target: only the rows can be wrong. -/
theorem defect_eq :
    (s.relation e).target - (s.relation e).sides (s.opening e) =
      (0, 0, 0, 0, -∑ j, s.weights e j • (s.mixed j - s.honest j)) := by
  have hA := sub_eq_zero.mpr (s.combination_commitments e)
  have hB : s.bridges e - (fun i => s.b i • Member.generator G +
      s.weights e i • previous s.h0 (s.bridges e) i) = 0 :=
    sub_eq_zero.mpr (funext (s.isChain_bridges e))
  have hC := sub_eq_zero.mpr s.sum_commitments
  have hD := sub_eq_zero.mpr (s.last_bridge e)
  have hF : ∑ i, e i • s.rows i - ((fun k => -(∑ i, s.nonces i k * e i) • zeroBase s.pk) +
      ∑ j, s.weights e j • s.mixed j) = -∑ j, s.weights e j • (s.mixed j - s.honest j) := by
    simp only [s.combination_rows e, smul_sub, Finset.sum_sub_distrib]
    rw [add_sub_add_left_eq_sub, neg_sub]
  exact Prod.ext hA (Prod.ext hB (Prod.ext hC (Prod.ext hD hF)))

/-- For the output of the shuffle the candidate is an opening. -/
theorem sides_opening (h : s.mixed = s.honest) :
    (s.relation e).sides (s.opening e) = (s.relation e).target := by
  have hdefect := s.defect_eq e
  simp only [h, sub_self, smul_zero, Finset.sum_const_zero, neg_zero] at hdefect
  exact (sub_eq_zero.mp hdefect).symm

/-! ## The two messages -/

theorem rowMask_eq (hw : 0 < w) (engine : Engine) (mixName : String) (psi : Permutation)
    (nonces : ScalarMatrix) (r b : Fin (n + 1) → Scalar) (ρ : Opening (n + 1) w) :
    (s.prover engine mixName psi nonces).rowMask (Coins.ofFamilies r b ρ) =
      .ok (row ((s.relation e).sides ρ).2.2.2.2) := by
  have hmixed := Engine.columnPower_rowSet engine hw s.mixed ρ.2.2.2.2.1
  rw [Prover.rowMask]
  show (engine.columnPower G (rowSet s.mixed) (List.ofFn ρ.2.2.2.2.1) >>= fun mixed =>
    (Row.encryptZeroNeg G ⟨s.pk.element⟩ (List.ofFn ρ.2.2.2.2.2)).mul G mixed) = _
  rw [hmixed, ok_bind, Row.encryptZeroNeg_ofFn, Row.mul_row]
  rfl

theorem commit_eq (O : Oracle) (hw : 0 < w) (engine : Engine) (mixName : String)
    (psi : Permutation) (nonces : ScalarMatrix) (hpsi : psi.size = n + 1) (hpi : s.pi = psi.toPerm hpsi) (t : O.State)
    (hgens : Generators.deriveAll O G mixName none (n + 1) = .ok s.derived)
    (he : batchingVector O G mixName s.derived (elements s.commitments) s.statement =
      (List.ofFn e, t)) (ρ : Opening (n + 1) w) :
    (s.prover engine mixName psi nonces).commit O (Coins.ofFamilies s.r s.b ρ) =
      .ok { transcript := t
            commitment := (s.relation e).commitment (s.exponents e (Fin.last n))
              ((s.relation e).sides ρ)
            weights := List.ofFn (s.weights e)
            coins := Coins.ofFamilies s.r s.b ρ } := by
  have hcount : (s.prover engine mixName psi nonces).rowCount = n + 1 := length_rowSet s.rows
  have hmask := s.rowMask_eq e hw engine mixName psi nonces s.r s.b ρ
  exact Prover.commit_eq O _ hcount hpsi hpi hgens s.r s.b ρ he hmask

/-- The reply to a challenge `v` is `v • ω + ρ`. -/
theorem reply_eq {O : Oracle} (engine : Engine) (mixName : String) (psi : Permutation)
    (nonces : ScalarMatrix) (hrows : nonces.rows = n + 1) (hcols : nonces.cols = w)
    (hnonces : s.nonces = nonces.family hrows hcols) (t : O.State) (masks : Sides G (n + 1) w)
    (ρ : Opening (n + 1) w) (v : Scalar) :
    (s.prover engine mixName psi nonces).reply
        (ProverState.mk (O := O) t ((s.relation e).commitment (s.exponents e (Fin.last n)) masks)
          (List.ofFn (s.weights e)) (Coins.ofFamilies s.r s.b ρ)) v =
      .ok (Opening.reply (v • s.opening e + ρ)) := by
  rw [Prover.reply_eq _ hrows hcols _ rfl rfl rfl, opening, hnonces]
  rfl

/-- The proof of a session. -/
theorem prove_eq (O : Oracle) (hw : 0 < w) (engine : Engine) (mixName : String)
    (psi : Permutation) (nonces : ScalarMatrix) (hpsi : psi.size = n + 1)
    (hpi : s.pi = psi.toPerm hpsi) (hrows : nonces.rows = n + 1) (hcols : nonces.cols = w)
    (hnonces : s.nonces = nonces.family hrows hcols) (t : O.State)
    (hgens : Generators.deriveAll O G mixName none (n + 1) = .ok s.derived)
    (he : batchingVector O G mixName s.derived (elements s.commitments) s.statement =
      (List.ofFn e, t)) (ρ : Opening (n + 1) w) :
    let commitment := (s.relation e).commitment (s.exponents e (Fin.last n))
      ((s.relation e).sides ρ)
    (s.prover engine mixName psi nonces).prove O (Coins.ofFamilies s.r s.b ρ) =
      .ok { mixName, commitment
            reply := Opening.reply (replyChallenge O G t commitment • s.opening e + ρ) } := by
  intro commitment
  rw [Prover.prove, s.commit_eq e O hw engine mixName psi nonces hpsi hpi t hgens he ρ, ok_bind]
  show (Prover.reply _ (ProverState.mk t commitment _ _) (replyChallenge O G t commitment) >>=
    _) = _
  rw [s.reply_eq e engine mixName psi nonces hrows hcols hnonces, ok_bind]
  rfl

end Session

end VerifiableMix
