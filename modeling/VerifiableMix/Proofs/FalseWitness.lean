import VerifiableMix.Proofs.Proof.Verdict
import VerifiableMix.Proofs.Scalar.Prime

/-!
# A false witness fails at the re-encryption

The prover checks the shape of its witness, not that the mixed rows are the
output of the shuffle.  Its proof is well-formed all the same, and all equations
but the last hold.  The last one compares rows, and what it finds is the product
of the quotients of the mixed and the honest rows, raised to the weights: the
proof passes exactly when the reply challenge takes every column of that product
to one.

If a single row is wrong there is nothing to cancel it, and since the order is
prime the proof passes only when the weight of that row or the challenge is
zero.

## Main results

* `defectRow_rowSet` — the product of the quotients, as a linear combination.
* `verify_of_witness` — the verdict on the proof of any witness.
-/

namespace VerifiableMix

open VerifiableMix.Group Failure

variable {G : Group} {n w : Nat}

/-! ## Quotients of rows -/

/-- Componentwise quotient. -/
def Ciphertext.div (G : Group) (x y : Ciphertext) : Ciphertext :=
  { pad := G.div x.pad y.pad, data := G.div x.data y.data }

/-- Columnwise quotient. -/
def Row.div (G : Group) (xs ys : Row) : Row :=
  List.zipWith (Ciphertext.div G) xs ys

/-- The quotients of two row sets, raised to weights and multiplied column by
column. -/
def defectRow (G : Group) (mixed honest : List Row) (weights : ScalarVector) :
    Except Error Row :=
  plainColumnPower G (List.zipWith (Row.div G) mixed honest) weights

theorem Row.div_row (r s : Fin w → Cipher G) : Row.div G (row r) (row s) = row (r - s) := by
  have hentry : ∀ x y : Cipher G, Ciphertext.div G (cipher x) (cipher y) = cipher (x - y) := by
    intro x y
    rw [Ciphertext.div, cipher, cipher, Member.div_element, Member.div_element]
    rfl
  rw [Row.div, row, row, zipWith_ofFn]
  simp only [hentry]
  rfl

theorem defectRow_rowSet (hw : 0 < w) (M H : Fin (n + 1) → Fin w → Cipher G)
    (k : Fin (n + 1) → Scalar) :
    defectRow G (rowSet M) (rowSet H) (List.ofFn k) =
      .ok (row (∑ j, k j • (M j - H j))) := by
  have hquotients : List.zipWith (Row.div G) (rowSet M) (rowSet H) = rowSet fun j => M j - H j := by
    rw [rowSet, rowSet, zipWith_ofFn]
    simp only [Row.div_row]
    rfl
  rw [defectRow, hquotients, plainColumnPower_rowSet hw]

/-- A power of a row is one in every column when the multiple is zero. -/
theorem pow_row_eq_one_iff (r : Fin w → Cipher G) (v : Scalar) :
    (∀ x ∈ row r, x.pow G v = Ciphertext.one G) ↔ v • r = 0 := by
  constructor
  · intro h
    funext k
    have hk := h (cipher (r k)) (List.mem_ofFn.mpr ⟨k, rfl⟩)
    rw [Ciphertext.pow_cipher, Ciphertext.one_eq] at hk
    exact Ciphertext.cipher_injective hk
  · intro h x hx
    obtain ⟨k, rfl⟩ := List.mem_ofFn.mp hx
    rw [Ciphertext.pow_cipher, Ciphertext.one_eq]
    exact congrArg cipher (congrFun h k)

/-! ## One wrong row -/

/-- A single row survives unless its factor is zero. -/
theorem mul_eq_zero_of_single {M H : Fin n → Fin w → Cipher G} {k : Fin n → Scalar} {v : Scalar}
    {j : Fin n} (hothers : ∀ i, i ≠ j → M i = H i) (hne : M j ≠ H j)
    (h : v • ∑ i, k i • (M i - H i) = 0) : k j * v = 0 := by
  have hsum : ∑ i, k i • (M i - H i) = k j • (M j - H j) := by
    refine Finset.sum_eq_single j (fun i _ hi => ?_) fun hj => absurd (Finset.mem_univ j) hj
    rw [hothers i hi, sub_self, smul_zero]
  rw [hsum, smul_smul, mul_comm] at h
  rcases (Scalar.smul_eq_zero_iff Scalar.prime_order).mp h with hfactor | hrow
  · exact hfactor
  · exact absurd (sub_eq_zero.mp hrow) hne

/-- The same for row sets, whose rows are looked up by number. -/
theorem exists_weight_of_single {M H : Fin n → Fin w → Cipher G} {k : Fin n → Scalar}
    {v : Scalar} {j : Nat} (hothers : ∀ i, i ≠ j → (rowSet M)[i]? = (rowSet H)[i]?)
    (hdiffers : (rowSet M)[j]? ≠ (rowSet H)[j]?) (h : v • ∑ i, k i • (M i - H i) = 0) :
    ∃ weight, (List.ofFn k)[j]? = some weight ∧ weight * v = 0 := by
  have hj : j < n := by
    by_contra hge
    have hM : (rowSet M)[j]? = none := List.getElem?_eq_none (by rw [length_rowSet]; omega)
    have hH : (rowSet H)[j]? = none := List.getElem?_eq_none (by rw [length_rowSet]; omega)
    exact hdiffers (hM.trans hH.symm)
  have hsame : ∀ i : Fin n, i ≠ ⟨j, hj⟩ → M i = H i := by
    intro i hi
    have hrow := hothers i fun hval => hi (Fin.ext hval)
    rw [getElem?_rowSet, getElem?_rowSet] at hrow
    exact Row.row_injective (Option.some.inj hrow)
  have hne : M ⟨j, hj⟩ ≠ H ⟨j, hj⟩ := by
    intro hequal
    apply hdiffers
    rw [getElem?_rowSet M ⟨j, hj⟩, getElem?_rowSet H ⟨j, hj⟩, hequal]
  exact ⟨k ⟨j, hj⟩, getElem?_ofFn k ⟨j, hj⟩, mul_eq_zero_of_single hsame hne h⟩

/-! ## The verdict on any witness -/

/-- The proof for any witness is well-formed and satisfies every equation but
the last; the last holds when the challenge takes the defect to one. -/
theorem verify_of_witness (O : Oracle) (hp : G.p.Prime) {st : Statement} {psi : Permutation}
    {nonces : ScalarMatrix} {mixName : String} {proverEngine verifierEngine : Engine}
    {V : Verifier} {P : Prover} {gens : Generators} {coins : Coins}
    (hV : Verifier.create verifierEngine G st = .ok V)
    (hP : Prover.create proverEngine G mixName st psi nonces = .ok P)
    (hgens : Generators.deriveAll O G mixName none st.rows.length = .ok gens)
    (hcoins : coins.Fits st.rows.length V.width) :
    ∃ (honest : Shuffle) (proof : ShuffleProof) (weights : ScalarVector) (R : Row) (t : O.State),
      Shuffle.create G st.rows st.pk psi nonces = .ok honest ∧
      P.prove O coins = .ok proof ∧
      proof.commitment.e.invert psi = .ok weights ∧
      defectRow G st.mixed honest.mixed weights = .ok R ∧ R.length = V.width ∧
      proof.validate G st.rows.length V.width = .ok () ∧
      batchingVector O G mixName gens proof.commitment.u st = (proof.commitment.e, t) ∧
      (let c := proof.commitment
       let k := proof.reply
       let v := replyChallenge O G t c
       V.permutationEquation gens c k c.e v = .ok true ∧
       Verifier.firstBrokenBridge G v gens.h0 c.bridges c.bridgeMasks k.kB k.kE = none ∧
       V.sumEquation gens c k v = true ∧
       (∃ last, c.bridges.getLast? = some last ∧
         V.productEquation gens c k c.e v last = true) ∧
       (V.verify O proof = .ok .accepted ↔ ∀ x ∈ R, x.pow G v = Ciphertext.one G) ∧
       ((¬ ∀ x ∈ R, x.pow G v = Ciphertext.one G) →
         V.verify O proof = .ok (.rejected .reencryption)) ∧
       ∀ j : Nat, (∀ i, i ≠ j → st.mixed[i]? = honest.mixed[i]?) →
         st.mixed[j]? ≠ honest.mixed[j]? → V.verify O proof = .ok .accepted →
         ∃ weight, weights[j]? = some weight ∧ weight * v = 0) := by
  -- What was checked is a session, whose mixed rows may be any members.
  obtain ⟨n, w, pk, R, M, hw, rfl, rfl⟩ := Verifier.create_eq_ok_iff.mp hV
  obtain ⟨hpsi, hrows, hcols, rfl⟩ := (Prover.create_eq_ok_iff hw).mp hP
  have hcount : (statementOf pk R M).rows.length = n + 1 := length_rowSet R
  rw [hcount] at hgens hcoins ⊢
  obtain ⟨h0, x, rfl⟩ := Generators.exists_generatorsOf_of_deriveAll hp hgens
  obtain ⟨r, b, ρ, rfl⟩ := hcoins.exists_eq
  let s : Session G n w :=
    { h0, generators := x, pk, rows := R, mixed := M, pi := psi.toPerm hpsi
      nonces := nonces.family hrows hcols, r, b }
  obtain ⟨e, t, he⟩ := s.exists_batchingVector O mixName
  let I := s.relation e
  let d := s.exponents e (Fin.last n)
  let masks := I.sides ρ
  let v := replyChallenge O G t (I.commitment d masks)
  let k := v • s.opening e + ρ
  -- The runs of both parties, none of which asks whether the rows are right.
  have hshuffle := Shuffle.create_rowSet pk hw R psi nonces hpsi hrows hcols
  have hprove := s.prove_eq e O hw proverEngine mixName psi nonces hpsi rfl hrows hcols rfl t
    hgens he ρ
  have hweights : ScalarVector.invert (List.ofFn e) psi = .ok (List.ofFn (s.weights e)) :=
    ScalarVector.invert_ofFn psi hpsi e
  have hdefect := defectRow_rowSet hw M s.honest (s.weights e)
  have hvalid := ShuffleProof.validate_commitmentOf mixName I.u d e I.bridges masks k
  -- The four equations that do not see the mixed rows.
  obtain ⟨hA, hB, hC, hD⟩ := s.sides_eq_of_prover e ρ v
  obtain ⟨_, hpermutation, hiffA⟩ :=
    Verifier.permutationEquation_eq I verifierEngine d masks k v
  rw [hiffA.mpr hA] at hpermutation
  have hbridge := (Verifier.firstBrokenBridge_relation I masks k v).mpr hB
  have hsum := (Verifier.sumEquation_iff I verifierEngine d masks k v).mpr hC
  have hproduct := (Verifier.productEquation_iff I verifierEngine d masks k v).mpr hD
  have hlast : (elements I.bridges).getLast? = some (I.bridges (Fin.last n)).element :=
    getLast?_ofFn fun i => (I.bridges i).element
  have hone := pow_row_eq_one_iff (s.rowDefect e) v
  have hverdict := s.verify_of_prover e O hw verifierEngine mixName t hgens he ρ
  have haccepted := s.verify_eq_accepted_iff e O hw verifierEngine mixName t hgens he ρ
  refine ⟨_, _, _, _, t, hshuffle, hprove, hweights, hdefect, length_row _, hvalid, he,
    hpermutation, hbridge, hsum, ⟨_, hlast, hproduct⟩, ?_, ?_, ?_⟩
  · exact haccepted.trans hone.symm
  · intro hne
    rcases hverdict with ⟨_, hzero⟩ | ⟨hverdict, _⟩
    · exact absurd (hone.mpr hzero) hne
    · exact hverdict
  · intro j hothers hdiffers h
    exact exists_weight_of_single hothers hdiffers (haccepted.mp h)

/-- A statement in which the second row was replaced by ones. -/
def testReplacement : Statement :=
  { pk := ⟨Group.test.generator⟩
    rows := testRows
    mixed := [[⟨Group.test.generator, Group.test.generator⟩], [Ciphertext.one Group.test]] }

/-- The prover of the replacement gets a verdict and no error. -/
theorem verify_of_witness_replacement :
    ∃ V P proof,
      Verifier.create ⟨1, .direct, 0⟩ Group.test testReplacement = .ok V ∧
      Prover.create ⟨1, .direct, 0⟩ Group.test "mix" testReplacement (Permutation.identity 2)
        ⟨2, 1, Vector.replicate _ 0⟩ = .ok P ∧
      P.prove Oracle.standard ⟨[1, 2], [3, 4], 5, [6, 7], 8, 9, [10, 11], [12]⟩ = .ok proof ∧
      proof.validate Group.test 2 1 = .ok () ∧
      (V.verify Oracle.standard proof = .ok .accepted ∨
        V.verify Oracle.standard proof = .ok (.rejected .reencryption)) := by
  obtain ⟨gens, hgens⟩ := Generators.exists_deriveAll_test
  let g := Member.generator Group.test
  let R : Fin 2 → Fin 1 → Cipher Group.test := fun _ _ => zeroBase g
  let M : Fin 2 → Fin 1 → Cipher Group.test := ![fun _ => zeroBase g, fun _ => 0]
  have hstatement : testReplacement = statementOf g R M := by
    rw [testReplacement, Ciphertext.one_eq]
    rfl
  have hV : Verifier.create ⟨1, .direct, 0⟩ Group.test testReplacement =
      .ok ⟨⟨1, .direct, 0⟩, Group.test, testReplacement, 1⟩ :=
    Verifier.create_eq_ok_iff.mpr ⟨1, 1, g, R, M, Nat.one_pos, hstatement, rfl⟩
  have hP : Prover.create ⟨1, .direct, 0⟩ Group.test "mix" testReplacement (Permutation.identity 2)
      ⟨2, 1, Vector.replicate _ 0⟩ =
      .ok ⟨⟨1, .direct, 0⟩, Group.test, "mix", testReplacement, Permutation.identity 2,
        ⟨2, 1, Vector.replicate _ 0⟩⟩ := by
    rw [hstatement]
    exact (Prover.create_eq_ok_iff Nat.one_pos).mpr ⟨rfl, rfl, rfl, rfl⟩
  obtain ⟨_, proof, _, R', t, _, hprove, _, _, _, hvalid, _, _, _, _, _, haccepted, hrejected, _⟩ :=
    verify_of_witness Oracle.standard prime_testModulus hV hP hgens
      (⟨rfl, rfl, rfl, rfl, rfl⟩ :
        Coins.Fits ⟨[1, 2], [3, 4], 5, [6, 7], 8, 9, [10, 11], [12]⟩ 2 1)
  refine ⟨_, _, proof, hV, hP, hprove, hvalid, ?_⟩
  by_cases hone : ∀ x ∈ R', x.pow Group.test
      (replyChallenge Oracle.standard Group.test t proof.commitment) = Ciphertext.one Group.test
  · exact .inl (haccepted.mpr hone)
  · exact .inr (hrejected hone)

end VerifiableMix
