import VerifiableMix.Proofs.Proof.Verifier

/-!
# Verification is total

A proof comes from outside and can be anything.  All that the verification asks
of it before the equations are its lengths and its members, and of the statement
it knows one positive width and one number of rows.  From the lengths alone every
step of the equations gives a result, whatever the elements are; the generators
need not be members either, so the modulus need not be prime.

## Main results

* `Verifier.exists_checkEquations_of_hasShape` — the equations give a verdict on
  every proof of the right shape.
* `Verifier.verify_error_iff` — a verification fails exactly when the proof is
  malformed.
-/

namespace VerifiableMix

open VerifiableMix.Group Failure

variable {G : Group} {n w : Nat}

/-! ## The operations of the equations -/

theorem Engine.exists_powerProduct (engine : Engine) {bases : ElementVector} {exps : ScalarVector}
    (hlength : bases.length = exps.length) : ∃ x, engine.powerProduct G bases exps = .ok x :=
  ⟨_, powerProduct_eq_value engine G hlength⟩

theorem Engine.exists_columnPower (engine : Engine) {rows : List Row} {exps : ScalarVector}
    (hwidth : rowWidth rows = .ok w) (hlength : exps.length = rows.length) :
    ∃ row, engine.columnPower G rows exps = .ok row ∧ row.length = w := by
  obtain ⟨m, R, hw, rfl⟩ := exists_rowsOf_of_rowWidth hwidth
  rw [length_rowsOf] at hlength
  obtain ⟨k, rfl⟩ := exists_eq_ofFn hlength
  exact ⟨_, columnPower_rowsOf engine G hw R k, List.length_ofFn⟩

theorem Row.exists_mul {xs ys : Row} (hlength : xs.length = ys.length) :
    ∃ zs, xs.mul G ys = .ok zs ∧ zs.length = ys.length := by
  rw [Row.mul, hlength, checkLength_self]
  refine ⟨_, rfl, ?_⟩
  rw [List.length_zipWith, hlength, Nat.min_self]

namespace Verifier

variable {V : Verifier} {gens : Generators} {c : ProofCommitment} {k : ProofReply}
  {e : ScalarVector} {v : Scalar}

theorem exists_permutationEquation (hu : c.u.length = e.length)
    (hgens : gens.rows.length = k.kE.length) :
    ∃ holds, V.permutationEquation gens c k e v = .ok holds := by
  obtain ⟨a, ha⟩ := V.engine.exists_powerProduct (G := V.group) hu
  obtain ⟨b, hb⟩ := V.engine.exists_powerProduct (G := V.group) hgens
  rw [permutationEquation, ha, ok_bind, hb, ok_bind]
  exact ⟨_, rfl⟩

theorem exists_reencryptionEquation (hrows : rowWidth V.statement.rows = .ok w)
    (hmixed : rowWidth V.statement.mixed = .ok w) (he : e.length = V.statement.rows.length)
    (hkE : k.kE.length = V.statement.mixed.length) (hmask : c.rowMask.length = w)
    (hkF : k.kF.length = w) : ∃ holds, V.reencryptionEquation c k e v = .ok holds := by
  obtain ⟨f, hf, hwidth⟩ := V.engine.exists_columnPower (G := V.group) hrows he
  obtain ⟨g, hg, hwidth'⟩ := V.engine.exists_columnPower (G := V.group) hmixed hkE
  have hleft : (f.pow V.group v).length = c.rowMask.length := by
    rw [Row.pow, List.length_map, hwidth, hmask]
  have hright : (Row.encryptZeroNeg V.group V.statement.pk k.kF).length = g.length := by
    rw [Row.encryptZeroNeg, List.length_map, hkF, hwidth']
  obtain ⟨left, hleft, _⟩ := Row.exists_mul (G := V.group) hleft
  obtain ⟨right, hright, _⟩ := Row.exists_mul (G := V.group) hright
  refine ⟨left.sameValues right, ?_⟩
  rw [reencryptionEquation, hf, ok_bind, hleft, ok_bind, hg, ok_bind, hright]
  rfl

/-- A check gives a verdict when what comes after it does. -/
theorem exists_verdict_of_check {holds : Bool} {reason : Rejection} {next : Except Error Verdict}
    (hnext : ∃ verdict, next = .ok verdict) :
    ∃ verdict, (if holds = true then next else .ok (.rejected reason)) = .ok verdict := by
  cases holds with
  | false => exact ⟨.rejected reason, rfl⟩
  | true => exact hnext

/-- There is a verdict when there is a last bridge and the two equations that can
fail give an answer. -/
theorem exists_checkEquations (hbridges : c.bridges ≠ [])
    (hpermutation : ∃ holds, V.permutationEquation gens c k e v = .ok holds)
    (hreencryption : ∃ holds, V.reencryptionEquation c k e v = .ok holds) :
    ∃ verdict, V.checkEquations gens c k e v = .ok verdict := by
  obtain ⟨_, hpermutation⟩ := hpermutation
  obtain ⟨_, hreencryption⟩ := hreencryption
  rw [checkEquations, List.getLast?_eq_some_getLast hbridges, hpermutation, hreencryption]
  simp only [ok_bind, pure_eq_ok]
  refine exists_verdict_of_check ?_
  cases firstBrokenBridge V.group v gens.h0 c.bridges c.bridgeMasks k.kB k.kE with
  | some row => exact ⟨.rejected (.bridge row), rfl⟩
  | none =>
      refine exists_verdict_of_check (exists_verdict_of_check (exists_verdict_of_check ?_))
      exact ⟨.accepted, rfl⟩

/-- The shape of a proof is enough for a verdict, whatever its elements are. -/
theorem exists_checkEquations_of_hasShape {proof : ShuffleProof}
    (hshape : proof.HasShape (n + 1) w) (hgens : gens.rows.length = n + 1)
    (he : e.length = n + 1) (hrows : rowWidth V.statement.rows = .ok w)
    (hmixed : rowWidth V.statement.mixed = .ok w) (hcount : V.statement.rows.length = n + 1)
    (hcount' : V.statement.mixed.length = n + 1) :
    ∃ verdict, V.checkEquations gens proof.commitment proof.reply e v = .ok verdict := by
  have hbridges : proof.commitment.bridges ≠ [] :=
    List.ne_nil_of_length_eq_add_one hshape.bridges
  exact exists_checkEquations hbridges
    (exists_permutationEquation (hshape.u.trans he.symm) (hgens.trans hshape.kE.symm))
    (exists_reencryptionEquation hrows hmixed (he.trans hcount.symm)
      (hshape.kE.trans hcount'.symm) hshape.rowMask hshape.kF)

/-! ## The verification -/

/-- A malformed proof is an error, that of its validation. -/
theorem verify_of_malformed (O : Oracle) {proof : ShuffleProof} {error : Error}
    (h : proof.validate V.group V.rowCount V.width = .error error) :
    V.verify O proof = .error error := by
  rw [verify, h]
  rfl

/-- A proof that passes the validation gets a verdict. -/
theorem exists_verify {engine : Engine} {s : Statement} (hV : create engine G s = .ok V)
    {O : Oracle} {proof : ShuffleProof}
    (hgens : Generators.deriveAll O G proof.mixName none s.rows.length = .ok gens)
    (hvalid : proof.validate G s.rows.length V.width = .ok ()) :
    ∃ verdict, V.verify O proof = .ok verdict := by
  obtain ⟨n, w, pk, R, M, hw, rfl, rfl⟩ := create_eq_ok_iff.mp hV
  have hcount : (statementOf pk R M).rows.length = n + 1 := length_rowSet R
  rw [hcount] at hgens hvalid
  have hshape := ShuffleProof.hasShape_of_validate hvalid
  rw [verify, rowCount]
  dsimp only
  rw [hcount, hvalid, ok_bind, hgens, ok_bind]
  rcases batchingVector O G proof.mixName gens proof.commitment.u (statementOf pk R M) with ⟨e, t⟩
  dsimp only
  by_cases hequal : e = proof.commitment.e
  · -- the equations are only reached with a batching vector of the right length
    have he : e.length = n + 1 := hequal ▸ hshape.e
    rw [if_pos hequal]
    exact exists_checkEquations_of_hasShape hshape (Generators.length_of_deriveAll hgens) he
      (rowWidth_rowSet hw R) (rowWidth_rowSet hw M) hcount (length_rowSet M)
  · rw [if_neg hequal]
    exact ⟨.rejected .batchingVector, rfl⟩

/-- A verification fails exactly when the proof is malformed, and with the error
of its validation.  A proof that passes the validation has an entry for each row
and each column of the statement wherever the equations look one up, and gets a
verdict. -/
theorem verify_error_iff {engine : Engine} {s : Statement} (hV : create engine G s = .ok V)
    (O : Oracle) (proof : ShuffleProof)
    (hgens : Generators.deriveAll O G proof.mixName none s.rows.length = .ok gens) :
    rowWidth s.rows = .ok V.width ∧
    (∀ error, V.verify O proof = .error error ↔
      proof.validate G s.rows.length V.width = .error error) ∧
    (proof.validate G s.rows.length V.width = .ok () →
      0 < s.rows.length ∧ proof.HasShape s.rows.length V.width ∧
      gens.rows.length = s.rows.length ∧ ∃ verdict, V.verify O proof = .ok verdict) := by
  have hverify := exists_verify hV hgens
  obtain ⟨n, w, pk, R, M, hw, rfl, rfl⟩ := create_eq_ok_iff.mp hV
  have hrows : (statementOf pk R M).rows.length = n + 1 := length_rowSet R
  refine ⟨rowWidth_rowSet hw R, fun error => ⟨fun herror => ?_, fun h => verify_of_malformed O h⟩,
    fun hvalid => ⟨by omega, ShuffleProof.hasShape_of_validate hvalid,
      Generators.length_of_deriveAll hgens, hverify hvalid⟩⟩
  cases hvalid : proof.validate G (statementOf pk R M).rows.length w with
  | error other =>
      rw [verify_of_malformed O hvalid] at herror
      rw [Except.error.inj herror]
  | ok u =>
      obtain ⟨verdict, hverdict⟩ := hverify hvalid
      rw [hverdict] at herror
      cases herror

/-- Of two rows an empty proof is malformed, and a proof made of the generator
gets a verdict. -/
theorem verify_error_iff_test :
    let x := Group.test.generator
    let empty : ShuffleProof :=
      ⟨"mix", ⟨[], 0, [], [], x, [], x, x, []⟩, ⟨0, [], 0, 0, [], []⟩⟩
    let constant : ShuffleProof :=
      ⟨"mix", ⟨[x, x], 0, [1, 1], [x, x], x, [x, x], x, x, [⟨x, x⟩]⟩,
        ⟨0, [0, 0], 0, 0, [0, 0], [0]⟩⟩
    ∃ V, create ⟨4, .windowed, 0⟩ Group.test ⟨⟨x⟩, testRows, testRows⟩ = .ok V ∧
      V.verify Oracle.standard empty = .error (.lengthMismatch .proofCommitments 2 0) ∧
      ∃ verdict, V.verify Oracle.standard constant = .ok verdict := by
  intro x empty constant
  let g := Member.generator Group.test
  obtain ⟨gens, hgens⟩ := Generators.exists_deriveAll_test
  have hV : create ⟨4, .windowed, 0⟩ Group.test ⟨⟨x⟩, testRows, testRows⟩ =
      .ok ⟨⟨4, .windowed, 0⟩, Group.test, ⟨⟨x⟩, testRows, testRows⟩, 1⟩ :=
    create_eq_ok_iff.mpr ⟨1, 1, g, fun _ _ => zeroBase g, fun _ _ => zeroBase g, Nat.one_pos,
      rfl, rfl⟩
  have hvalid : constant.validate Group.test 2 1 = .ok () :=
    ShuffleProof.validate_commitmentOf "mix" (fun _ => g) 0 (fun _ => 1) (fun _ => g)
      (g, fun _ => g, g, g, fun _ => (g, g)) (0, fun _ => 0, 0, 0, fun _ => 0, fun _ => 0)
  obtain ⟨_, hmalformed, _⟩ := verify_error_iff hV Oracle.standard empty hgens
  obtain ⟨_, _, hformed⟩ := verify_error_iff hV Oracle.standard constant hgens
  obtain ⟨_, _, _, hverdict⟩ := hformed hvalid
  exact ⟨_, hV, (hmalformed _).mpr rfl, hverdict⟩

end Verifier

end VerifiableMix
