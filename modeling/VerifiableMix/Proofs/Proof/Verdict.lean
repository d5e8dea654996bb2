import VerifiableMix.Proofs.Proof.Prover

/-!
# The verdict on a prover

A session masks with `φ ρ` and replies `v • ω + ρ`, so by linearity the two
sides of the equations differ by `v` times the defect of `ω`.  That defect lives
in the last component: all equations but the one of the re-encryption hold, and
the verdict is positive exactly when the challenge kills the rest.

## Main results

* `Session.sides_eq_of_prover` — the equations that hold for every witness.
* `Session.checkEquations_of_honest` — the verdict when the rows are right.
* `Session.verify_of_prover` — the verdict in general.
-/

namespace VerifiableMix

open VerifiableMix.Group Failure

variable {G : Group} {n w : Nat}

namespace Session

variable (s : Session G n w) (e : Fin (n + 1) → Scalar)

/-- What is left of the rows when the prover's output is taken away. -/
def rowDefect : Fin w → Cipher G :=
  ∑ j, s.weights e j • (s.mixed j - s.honest j)

theorem leftSides_sub (ρ : Opening (n + 1) w) (v : Scalar) :
    (s.relation e).leftSides ((s.relation e).sides ρ) v -
        (s.relation e).sides (v • s.opening e + ρ) =
      v • (0, 0, 0, 0, -s.rowDefect e) := by
  rw [Relation.leftSides, map_add, map_smul, add_sub_add_right_eq_sub, ← smul_sub, s.defect_eq e]
  rfl

/-- All equations but the last hold for every witness. -/
theorem sides_eq_of_prover (ρ : Opening (n + 1) w) (v : Scalar) :
    let left := (s.relation e).leftSides ((s.relation e).sides ρ) v
    let right := (s.relation e).sides (v • s.opening e + ρ)
    left.1 = right.1 ∧ left.2.1 = right.2.1 ∧ left.2.2.1 = right.2.2.1 ∧
      left.2.2.2.1 = right.2.2.2.1 := by
  intro left right
  have hsub : left - right = v • (0, 0, 0, 0, -s.rowDefect e) := s.leftSides_sub e ρ v
  have hA : left.1 - right.1 = v • 0 := congrArg Prod.fst hsub
  have hB : left.2.1 - right.2.1 = v • 0 := congrArg (fun x => x.2.1) hsub
  have hC : left.2.2.1 - right.2.2.1 = v • 0 := congrArg (fun x => x.2.2.1) hsub
  have hD : left.2.2.2.1 - right.2.2.2.1 = v • 0 := congrArg (fun x => x.2.2.2.1) hsub
  rw [smul_zero] at hA hB hC hD
  exact ⟨sub_eq_zero.mp hA, sub_eq_zero.mp hB, sub_eq_zero.mp hC, sub_eq_zero.mp hD⟩

/-- The last equation holds when the challenge kills the defect of the rows. -/
theorem reencryption_iff_of_prover (ρ : Opening (n + 1) w) (v : Scalar) :
    ((s.relation e).leftSides ((s.relation e).sides ρ) v).2.2.2.2 =
        ((s.relation e).sides (v • s.opening e + ρ)).2.2.2.2 ↔
      v • s.rowDefect e = 0 := by
  have hF := congrArg (fun x => x.2.2.2.2) (s.leftSides_sub e ρ v)
  have hF' : ((s.relation e).leftSides ((s.relation e).sides ρ) v).2.2.2.2 -
      ((s.relation e).sides (v • s.opening e + ρ)).2.2.2.2 = v • -s.rowDefect e := hF
  rw [← sub_eq_zero, hF', smul_neg, neg_eq_zero]

/-- The replies of a prover of its own shuffle are accepted for its masks. -/
theorem accepts_of_honest (h : s.mixed = s.honest) (ρ : Opening (n + 1) w) (v : Scalar) :
    LinearRelation.Accepts (s.relation e).sides (s.relation e).target ((s.relation e).sides ρ) v
      (v • s.opening e + ρ) := by
  rw [LinearRelation.accepts_iff, s.sides_opening e h, sub_self, smul_zero]

/-- The replies of a prover of its own shuffle are accepted at every challenge. -/
theorem checkEquations_of_honest (hw : 0 < w) (engine : Engine) (d : Scalar)
    (h : s.mixed = s.honest) (ρ : Opening (n + 1) w) (v : Scalar) :
    ((s.relation e).verifier engine).checkEquations (s.relation e).derived
        ((s.relation e).commitment d ((s.relation e).sides ρ))
        (Opening.reply (v • s.opening e + ρ)) (List.ofFn e) v = .ok .accepted :=
  (Verifier.checkEquations_eq_accepted_iff hw (s.relation e) engine d _ _ v).mpr
    (s.accepts_of_honest e h ρ v)

/-- The verdict on the proof of a session. -/
theorem verify_of_prover (O : Oracle) (hw : 0 < w) (engine : Engine) (mixName : String)
    (t : O.State) (hgens : Generators.deriveAll O G mixName none (n + 1) = .ok s.derived)
    (he : batchingVector O G mixName s.derived (elements s.commitments) s.statement =
      (List.ofFn e, t)) (ρ : Opening (n + 1) w) :
    let commitment := (s.relation e).commitment (s.exponents e (Fin.last n))
      ((s.relation e).sides ρ)
    let v := replyChallenge O G t commitment
    let verdict := ((s.relation e).verifier engine).verify O
      { mixName, commitment, reply := Opening.reply (v • s.opening e + ρ) }
    (verdict = .ok .accepted ∧ v • s.rowDefect e = 0) ∨
      (verdict = .ok (.rejected .reencryption) ∧ v • s.rowDefect e ≠ 0) := by
  intro commitment v verdict
  obtain ⟨hA, hB, hC, hD⟩ := s.sides_eq_of_prover e ρ v
  have hverdict : verdict = ((s.relation e).verifier engine).checkEquations
      (s.relation e).derived commitment (Opening.reply (v • s.opening e + ρ)) (List.ofFn e) v :=
    Verifier.verify_eq O (s.relation e) engine mixName (s.exponents e (Fin.last n)) _ _ t hgens he
  have hcheck := Verifier.checkEquations_of_sides_eq hw (s.relation e) engine
    (s.exponents e (Fin.last n)) ((s.relation e).sides ρ) (v • s.opening e + ρ) v hA hB hC hD
  have hiff := s.reencryption_iff_of_prover e ρ v
  rw [hverdict]
  rcases hcheck with ⟨haccepted, hF⟩ | ⟨hrejected, hF⟩
  · exact .inl ⟨haccepted, hiff.mp hF⟩
  · exact .inr ⟨hrejected, fun hzero => hF (hiff.mpr hzero)⟩

/-- The proof of a session passes exactly when the challenge kills the defect. -/
theorem verify_eq_accepted_iff (O : Oracle) (hw : 0 < w) (engine : Engine) (mixName : String)
    (t : O.State) (hgens : Generators.deriveAll O G mixName none (n + 1) = .ok s.derived)
    (he : batchingVector O G mixName s.derived (elements s.commitments) s.statement =
      (List.ofFn e, t)) (ρ : Opening (n + 1) w) :
    let commitment := (s.relation e).commitment (s.exponents e (Fin.last n))
      ((s.relation e).sides ρ)
    let v := replyChallenge O G t commitment
    ((s.relation e).verifier engine).verify O
        { mixName, commitment, reply := Opening.reply (v • s.opening e + ρ) } = .ok .accepted ↔
      v • s.rowDefect e = 0 := by
  intro commitment v
  rcases s.verify_of_prover e O hw engine mixName t hgens he ρ with
    ⟨hverdict, hzero⟩ | ⟨hverdict, hne⟩
  · exact iff_of_true hverdict hzero
  · refine iff_of_false (fun h => ?_) hne
    have hequal := h.symm.trans hverdict
    cases hequal

end Session

end VerifiableMix
