import VerifiableMix.Proof.Verifier
import VerifiableMix.Proofs.Commitment.Generators
import VerifiableMix.Proofs.Engine
import VerifiableMix.Proofs.Proof.Relation

/-!
# The verifier checks the relation

What the verifier holds after its checks is a family of members for each part of
the statement and of the proof.  On families its equations compare the two sides
of the relation component by component, so it accepts exactly the replies that
the relation accepts.

## Main results

* `Verifier.create_eq_ok_iff` — which statements pass the checks.
* `ShuffleProof.checkLengths_eq_ok_iff` — the lengths that a proof must have.
* `ShuffleProof.exists_of_validate` — the families behind a proof that passed.
* `Verifier.checkEquations_eq_accepted_iff` — the equations hold exactly when the
  reply is accepted for the masks.
* `Verifier.checkEquations_of_firstDifference` — the verdict names the first equation
  whose sides differ.
* `Verifier.exists_relation_of_accepted` — what is behind a proof that was accepted.
-/

namespace VerifiableMix

open VerifiableMix.Group Failure

variable {G : Group} {n w : Nat}

/-! ## Families as messages -/

namespace Group

/-- The statement about families of rows. -/
def statementOf (pk : Member G) (R M : Fin n → Fin w → Cipher G) : Statement :=
  { pk := ⟨pk.element⟩, rows := rowSet R, mixed := rowSet M }

/-- The first message with given masks. -/
def commitmentOf (u : Fin n → Member G) (d : Scalar) (e : Fin n → Scalar) (B : Fin n → Member G)
    (masks : Sides G n w) : ProofCommitment :=
  { u := elements u
    d
    e := List.ofFn e
    bridges := elements B
    maskA := masks.1.element
    bridgeMasks := elements masks.2.1
    maskC := masks.2.2.1.element
    maskD := masks.2.2.2.1.element
    rowMask := row masks.2.2.2.2 }

end Group

/-- The second message with given replies. -/
def Opening.reply (k : Opening n w) : ProofReply :=
  { kA := k.1
    kB := List.ofFn k.2.1
    kC := k.2.2.1
    kD := k.2.2.2.1
    kE := List.ofFn k.2.2.2.2.1
    kF := List.ofFn k.2.2.2.2.2 }

namespace Relation

/-- The statement of a relation. -/
def statement (I : Relation G n w) : Statement :=
  statementOf I.pk I.rows I.mixed

/-- The generators of a relation. -/
def derived (I : Relation G n w) : Generators :=
  generatorsOf I.h0 I.generators

/-- The first message for a relation. -/
def commitment (I : Relation G n w) (d : Scalar) (masks : Sides G n w) : ProofCommitment :=
  commitmentOf I.u d I.e I.bridges masks

/-- The verifier that checked the statement of a relation. -/
def verifier (I : Relation G n w) (engine : Engine) : Verifier :=
  { engine, group := G, statement := I.statement, width := w }

/-- The left-hand sides of the equations at a challenge. -/
def leftSides (I : Relation G (n + 1) w) (masks : Sides G (n + 1) w) (v : Scalar) :
    Sides G (n + 1) w :=
  v • I.target + masks

end Relation

/-- What is reported of two sides that differ, when they are compared in the order
of the letters. -/
inductive FirstDifference (left right : Sides G n w) : Rejection → Prop
  | permutationCommitment (hA : left.1 ≠ right.1) :
      FirstDifference left right .permutationCommitment
  | bridge (i : Fin n) (hA : left.1 = right.1)
      (hbefore : ∀ j < i, left.2.1 j = right.2.1 j) (hB : left.2.1 i ≠ right.2.1 i) :
      FirstDifference left right (.bridge i)
  | commitmentSum (hA : left.1 = right.1) (hB : left.2.1 = right.2.1)
      (hC : left.2.2.1 ≠ right.2.2.1) : FirstDifference left right .commitmentSum
  | bridgeProduct (hA : left.1 = right.1) (hB : left.2.1 = right.2.1)
      (hC : left.2.2.1 = right.2.2.1) (hD : left.2.2.2.1 ≠ right.2.2.2.1) :
      FirstDifference left right .bridgeProduct
  | reencryption (hA : left.1 = right.1) (hB : left.2.1 = right.2.1)
      (hC : left.2.2.1 = right.2.2.1) (hD : left.2.2.2.1 = right.2.2.2.1)
      (hF : left.2.2.2.2 ≠ right.2.2.2.2) : FirstDifference left right .reencryption

/-! ## Well-formedness -/

/-- The vectors of a proof have the lengths for `n` rows of width `w`. -/
structure ShuffleProof.HasShape (proof : ShuffleProof) (n w : Nat) : Prop where
  u : proof.commitment.u.length = n
  e : proof.commitment.e.length = n
  bridges : proof.commitment.bridges.length = n
  bridgeMasks : proof.commitment.bridgeMasks.length = n
  rowMask : proof.commitment.rowMask.length = w
  kB : proof.reply.kB.length = n
  kE : proof.reply.kE.length = n
  kF : proof.reply.kF.length = w

theorem ShuffleProof.checkLengths_eq_ok_iff {proof : ShuffleProof} {u : Unit} :
    proof.checkLengths n w = .ok u ↔ proof.HasShape n w := by
  simp only [checkLengths, bind_eq_ok_iff, checkLength_eq_ok_iff]
  constructor
  · rintro ⟨_, hu, _, he, _, hB, _, hB', _, hF', _, hkB, _, hkE, hkF⟩
    exact ⟨hu.symm, he.symm, hB.symm, hB'.symm, hF'.symm, hkB.symm, hkE.symm, hkF.symm⟩
  · intro h
    exact ⟨(), h.u.symm, (), h.e.symm, (), h.bridges.symm, (), h.bridgeMasks.symm, (),
      h.rowMask.symm, (), h.kB.symm, (), h.kE.symm, h.kF.symm⟩

theorem ShuffleProof.hasShape_of_validate {proof : ShuffleProof} {u : Unit}
    (h : proof.validate G n w = .ok u) : proof.HasShape n w := by
  obtain ⟨_, hlengths, _⟩ := bind_eq_ok_iff.mp h
  exact checkLengths_eq_ok_iff.mp hlengths

/-- The families behind a proof that passed the checks. -/
theorem ShuffleProof.exists_of_validate {proof : ShuffleProof}
    (h : proof.validate G n w = .ok ()) :
    ∃ (u : Fin n → Member G) (e : Fin n → Scalar) (B : Fin n → Member G) (masks : Sides G n w)
      (k : Opening n w), proof.commitment = commitmentOf u proof.commitment.d e B masks ∧
        proof.reply = Opening.reply k := by
  have hshape := hasShape_of_validate h
  obtain ⟨mixName, ⟨u, d, e, bridges, maskA, bridgeMasks, maskC, maskD, rowMask⟩,
    ⟨kA, kB, kC, kD, kE, kF⟩⟩ := proof
  simp only [validate, ProofCommitment.checkMembers, bind_eq_ok_iff] at h
  obtain ⟨_, _, _, hmu, _, hmB, _, hmB', _, hmA', _, hmC', _, hmD', hmF'⟩ := h
  obtain ⟨u, rfl⟩ := exists_elements hshape.u hmu
  obtain ⟨e, rfl⟩ := exists_eq_ofFn hshape.e
  obtain ⟨B, rfl⟩ := exists_elements hshape.bridges hmB
  obtain ⟨B', rfl⟩ := exists_elements hshape.bridgeMasks hmB'
  obtain ⟨F', rfl⟩ := Row.exists_row hshape.rowMask hmF'
  obtain ⟨b, rfl⟩ := exists_eq_ofFn hshape.kB
  obtain ⟨weights, rfl⟩ := exists_eq_ofFn hshape.kE
  obtain ⟨f, rfl⟩ := exists_eq_ofFn hshape.kF
  let A' : Member G := ⟨maskA, checkElement_eq_ok_iff.mp hmA'⟩
  let C' : Member G := ⟨maskC, checkElement_eq_ok_iff.mp hmC'⟩
  let D' : Member G := ⟨maskD, checkElement_eq_ok_iff.mp hmD'⟩
  exact ⟨u, e, B, (A', B', C', D', F'), (kA, b, kC, kD, weights, f), rfl, rfl⟩

/-- Messages made of families pass the checks. -/
theorem ShuffleProof.validate_commitmentOf (mixName : String) (u : Fin n → Member G) (d : Scalar)
    (e : Fin n → Scalar) (B : Fin n → Member G) (masks : Sides G n w) (k : Opening n w) :
    validate G { mixName, commitment := commitmentOf u d e B masks, reply := Opening.reply k } n w =
      .ok () := by
  have hmember : ∀ x : Member G, G.checkElement x.element = .ok () := fun x =>
    checkElement_eq_ok_iff.mpr x.isMember
  simp [validate, checkLengths, ProofCommitment.checkMembers, commitmentOf, Opening.reply,
    validate_elements, Row.validate_row, hmember]

namespace Verifier

theorem checkPair_eq_ok_iff {pair : Row × Row} :
    (∃ u, checkPair G pair = .ok u) ↔ pair.1.validate G = .ok () ∧ pair.2.validate G = .ok () := by
  simp only [checkPair, bind_eq_ok_iff]
  exact ⟨fun ⟨_, _, hleft, hright⟩ => ⟨hleft, hright⟩,
    fun ⟨hleft, hright⟩ => ⟨(), (), hleft, hright⟩⟩

/-- The check goes row by row, but it covers both row sets. -/
theorem checkRows_eq_ok_iff {engine : Engine} {rows mixed : List Row}
    (hcount : rows.length = mixed.length) {u : Unit} :
    checkRows engine G rows mixed = .ok u ↔
      (∀ r ∈ rows, r.validate G = .ok ()) ∧ ∀ r ∈ mixed, r.validate G = .ok () := by
  have hpair : checkRows engine G rows mixed = .ok u ↔ ∀ pair ∈ rows.zip mixed,
      pair.1.validate G = .ok () ∧ pair.2.validate G = .ok () := by
    simp only [← checkPair_eq_ok_iff, ← engine.exists_runEach_eq_ok_iff, checkRows, bind_eq_ok_iff,
      pure_eq_ok, and_true]
  rw [hpair]
  constructor
  · intro h
    constructor
    · intro row hrow
      rw [← List.map_fst_zip hcount.le] at hrow
      obtain ⟨pair, hmem, rfl⟩ := List.mem_map.mp hrow
      exact (h pair hmem).1
    · intro row hrow
      rw [← List.map_snd_zip hcount.ge] at hrow
      obtain ⟨pair, hmem, rfl⟩ := List.mem_map.mp hrow
      exact (h pair hmem).2
  · rintro ⟨hrows, hmixed⟩ pair hmem
    obtain ⟨hleft, hright⟩ := List.of_mem_zip hmem
    exact ⟨hrows _ hleft, hmixed _ hright⟩

/-- The statements that pass the checks are those about families of members. -/
theorem create_eq_ok_iff {engine : Engine} {s : Statement} {V : Verifier} :
    create engine G s = .ok V ↔
      ∃ (n w : Nat) (pk : Member G) (R M : Fin (n + 1) → Fin w → Cipher G), 0 < w ∧
        s = statementOf pk R M ∧ V = { engine, group := G, statement := s, width := w } := by
  constructor
  · intro h
    obtain ⟨pk, rows, mixed⟩ := s
    simp only [create, bind_eq_ok_iff, checkLength_eq_ok_iff, pure_eq_ok, Except.ok.injEq] at h
    obtain ⟨w, hwidth, _, hcount, w', hwidth', _, rfl, _, hpk, _, hrows, hV⟩ := h
    obtain ⟨_, _, hrect⟩ := rowWidth_eq_ok_iff.mp hwidth'
    obtain ⟨hmembers, hmembers'⟩ := (checkRows_eq_ok_iff hcount).mp hrows
    obtain ⟨n, R, hw, rfl⟩ := exists_rowSet_of_rowWidth hwidth hmembers
    obtain ⟨M, rfl⟩ := exists_rowSet (hcount.symm.trans (length_rowSet R)) hrect hmembers'
    exact ⟨n, w, ⟨pk.key, checkElement_eq_ok_iff.mp hpk⟩, R, M, hw, rfl, hV.symm⟩
  · rintro ⟨n, w, pk, R, M, hw, rfl, rfl⟩
    have hpk : G.checkElement pk.element = .ok () := checkElement_eq_ok_iff.mpr pk.isMember
    have hrows : checkRows engine G (rowSet R) (rowSet M) = .ok () :=
      (checkRows_eq_ok_iff (by simp)).mpr ⟨validate_of_mem_rowSet R, validate_of_mem_rowSet M⟩
    simp [create, statementOf, rowWidth_rowSet hw, hpk, hrows]

/-! ## The equations -/

theorem opens_iff (v : Scalar) (x mask target : Member G) :
    opens G v x.element mask.element target.element = true ↔ v • x + mask = target := by
  rw [opens, Member.pow_element, Member.mul_element, Member.sameValue_iff]

theorem permutationEquation_eq (I : Relation G (n + 1) w) (engine : Engine) (d : Scalar)
    (masks : Sides G (n + 1) w) (k : Opening (n + 1) w) (v : Scalar) :
    ∃ holds, (I.verifier engine).permutationEquation I.derived (I.commitment d masks)
        (Opening.reply k) (List.ofFn I.e) v = .ok holds ∧
      (holds = true ↔ (I.leftSides masks v).1 = (I.sides k).1) := by
  refine ⟨_, ?_, opens_iff v (∑ j, I.e j • I.u j) masks.1 (I.sides k).1⟩
  have ha := Engine.powerProduct_elements engine I.u I.e
  have hgenerators := Engine.powerProduct_elements engine I.generators k.2.2.2.2.1
  rw [permutationEquation]
  show (engine.powerProduct G (elements I.u) (List.ofFn I.e) >>= fun _ =>
    engine.powerProduct G (elements I.generators) (List.ofFn k.2.2.2.2.1) >>= _) = _
  rw [ha, ok_bind, hgenerators, ok_bind, Opening.reply]
  simp only [Relation.verifier, Member.gpow_eq, Member.mul_element]
  rfl

/-- The first bridge is checked against the base, the others against their own
first bridge. -/
theorem firstBrokenBridge_succ (h : Member G) (v : Scalar) (B B' : Fin (n + 1) → Member G)
    (b weights : Fin (n + 1) → Scalar) :
    firstBrokenBridge G v h.element (elements B) (elements B') (List.ofFn b)
        (List.ofFn weights) =
      if opens G v (B 0).element (B' 0).element
          (b 0 • Member.generator G + weights 0 • h).element then
        (firstBrokenBridge G v (B 0).element (elements fun i => B i.succ)
          (elements fun i => B' i.succ) (List.ofFn fun i => b i.succ)
          (List.ofFn fun i => weights i.succ)).map (· + 1)
      else some 0 := by
  have htarget : G.mul (G.gpow (b 0)) (G.pow h.element (weights 0)) =
      (b 0 • Member.generator G + weights 0 • h).element := by
    rw [Member.gpow_eq, Member.pow_element, Member.mul_element]
  rw [elements, elements, List.ofFn_succ, List.ofFn_succ, List.ofFn_succ, List.ofFn_succ,
    firstBrokenBridge, htarget]
  rfl

/-- No bridge is broken when every bridge satisfies its equation. -/
theorem firstBrokenBridge_eq_none_iff (h : Member G) (v : Scalar) (B B' : Fin n → Member G)
    (b weights : Fin n → Scalar) :
    firstBrokenBridge G v h.element (elements B) (elements B') (List.ofFn b)
        (List.ofFn weights) = none ↔
      ∀ i, v • B i + B' i = b i • Member.generator G + weights i • previous h B i := by
  induction n generalizing h with
  | zero =>
      refine iff_of_true ?_ fun i => i.elim0
      simp [elements, firstBrokenBridge]
  | succ n ih =>
      have hrest := ih (B 0) (fun i => B i.succ) (fun i => B' i.succ) (fun i => b i.succ)
        fun i => weights i.succ
      have hfirst := opens_iff v (B 0) (B' 0) (b 0 • Member.generator G + weights 0 • h)
      rw [firstBrokenBridge_succ, Fin.forall_fin_succ, previous_zero, ← hfirst]
      by_cases hopens : opens G v (B 0).element (B' 0).element
          (b 0 • Member.generator G + weights 0 • h).element = true
      · rw [if_pos hopens, Option.map_eq_none_iff]
        refine hrest.trans ?_
        simp only [previous_tail, previous_succ, hopens, true_and]
      · rw [if_neg hopens]
        simp [hopens]

/-- A bridge is reported when it is the first that fails its equation. -/
theorem firstBrokenBridge_eq_some (h : Member G) (v : Scalar) (B B' : Fin n → Member G)
    (b weights : Fin n → Scalar) (i : Fin n)
    (hbefore : ∀ j < i, v • B j + B' j = b j • Member.generator G + weights j • previous h B j)
    (hi : v • B i + B' i ≠ b i • Member.generator G + weights i • previous h B i) :
    firstBrokenBridge G v h.element (elements B) (elements B') (List.ofFn b)
        (List.ofFn weights) = some i.val := by
  induction n generalizing h with
  | zero => exact i.elim0
  | succ n ih =>
      have hfirst := opens_iff v (B 0) (B' 0) (b 0 • Member.generator G + weights 0 • h)
      rw [firstBrokenBridge_succ]
      cases i using Fin.cases with
      | zero =>
          rw [previous_zero] at hi
          rw [if_neg fun hopens => hi (hfirst.mp hopens)]
          rfl
      | succ i =>
          have hzero := hbefore 0 (Fin.succ_pos i)
          rw [previous_zero] at hzero
          have hrest := ih (B 0) (fun j => B j.succ) (fun j => B' j.succ) (fun j => b j.succ)
            (fun j => weights j.succ) i
            (fun j hj => by
              rw [previous_tail, ← previous_succ h B j]
              exact hbefore j.succ (Fin.succ_lt_succ_iff.mpr hj))
            (by
              rw [previous_tail, ← previous_succ h B i]
              exact hi)
          rw [if_pos (hfirst.mpr hzero), hrest]
          rfl

/-- No bridge of a relation is broken. -/
theorem firstBrokenBridge_relation (I : Relation G (n + 1) w) (masks : Sides G (n + 1) w)
    (k : Opening (n + 1) w) (v : Scalar) :
    firstBrokenBridge G v I.h0.element (elements I.bridges) (elements masks.2.1)
        (List.ofFn k.2.1) (List.ofFn k.2.2.2.2.1) = none ↔
      (I.leftSides masks v).2.1 = (I.sides k).2.1 := by
  rw [firstBrokenBridge_eq_none_iff]
  exact funext_iff.symm

theorem sumEquation_iff (I : Relation G (n + 1) w) (engine : Engine) (d : Scalar)
    (masks : Sides G (n + 1) w) (k : Opening (n + 1) w) (v : Scalar) :
    (I.verifier engine).sumEquation I.derived (I.commitment d masks) (Opening.reply k) v = true ↔
      (I.leftSides masks v).2.2.1 = (I.sides k).2.2.1 := by
  have hquotient : G.div (G.prod (elements I.u)) (G.prod (elements I.generators)) =
      (∑ j, I.u j - ∑ i, I.generators i).element := by
    rw [prod_elements, prod_elements, Member.div_element]
  refine Iff.trans ?_ (opens_iff v (∑ j, I.u j - ∑ i, I.generators i) masks.2.2.1
    (k.2.2.1 • Member.generator G))
  show opens G v (G.div (G.prod (elements I.u)) (G.prod (elements I.generators)))
    masks.2.2.1.element (G.gpow k.2.2.1) = true ↔ _
  rw [hquotient, Member.gpow_eq]

theorem productEquation_iff (I : Relation G (n + 1) w) (engine : Engine) (d : Scalar)
    (masks : Sides G (n + 1) w) (k : Opening (n + 1) w) (v : Scalar) :
    (I.verifier engine).productEquation I.derived (I.commitment d masks) (Opening.reply k)
        (List.ofFn I.e) v (I.bridges (Fin.last n)).element = true ↔
      (I.leftSides masks v).2.2.2.1 = (I.sides k).2.2.2.1 := by
  have hquotient : G.div (I.bridges (Fin.last n)).element
      (G.pow I.h0.element (ScalarVector.product (List.ofFn I.e))) =
      (I.bridges (Fin.last n) - (∏ i, I.e i) • I.h0).element := by
    rw [ScalarVector.product_ofFn, Member.pow_element, Member.div_element]
  refine Iff.trans ?_ (opens_iff v (I.bridges (Fin.last n) - (∏ i, I.e i) • I.h0) masks.2.2.2.1
    (k.2.2.2.1 • Member.generator G))
  show opens G v (G.div (I.bridges (Fin.last n)).element
    (G.pow I.h0.element (ScalarVector.product (List.ofFn I.e))))
    masks.2.2.2.1.element (G.gpow k.2.2.2.1) = true ↔ _
  rw [hquotient, Member.gpow_eq]

theorem reencryptionEquation_eq (hw : 0 < w) (I : Relation G (n + 1) w) (engine : Engine)
    (d : Scalar) (masks : Sides G (n + 1) w) (k : Opening (n + 1) w) (v : Scalar) :
    ∃ holds, (I.verifier engine).reencryptionEquation (I.commitment d masks) (Opening.reply k)
        (List.ofFn I.e) v = .ok holds ∧
      (holds = true ↔ (I.leftSides masks v).2.2.2.2 = (I.sides k).2.2.2.2) := by
  refine ⟨_, ?_, Row.sameValues_iff _ _⟩
  have hrows := Engine.columnPower_rowSet engine hw I.rows I.e
  have hmixed := Engine.columnPower_rowSet engine hw I.mixed k.2.2.2.2.1
  rw [reencryptionEquation]
  show (engine.columnPower G (rowSet I.rows) (List.ofFn I.e) >>= fun f =>
    (f.pow G v).mul G (row masks.2.2.2.2) >>= fun left =>
    engine.columnPower G (rowSet I.mixed) (List.ofFn k.2.2.2.2.1) >>= fun mixed =>
    (Row.encryptZeroNeg G ⟨I.pk.element⟩ (List.ofFn k.2.2.2.2.2)).mul G mixed >>= fun right =>
    Except.ok (left.sameValues right)) = _
  rw [hrows, ok_bind, Row.pow_row, Row.mul_row, ok_bind, hmixed, ok_bind, Row.encryptZeroNeg_ofFn,
    Row.mul_row, ok_bind]
  rfl

/-! ## All equations -/

/-- A check lets the verdict be positive only when it holds. -/
theorem check_eq_accepted_iff {holds : Bool} {reason : Rejection}
    {next : Except Error Verdict} :
    (if holds = true then next else .ok (.rejected reason)) = .ok .accepted ↔
      holds = true ∧ next = .ok .accepted := by
  cases holds <;> simp

/-- The verdict is positive exactly when every equation holds. -/
theorem checkEquations_eq_ok_accepted_iff {V : Verifier} {gens : Generators}
    {c : ProofCommitment} {k : ProofReply} {e : ScalarVector} {v : Scalar} :
    V.checkEquations gens c k e v = .ok .accepted ↔
      V.permutationEquation gens c k e v = .ok true ∧
      firstBrokenBridge V.group v gens.h0 c.bridges c.bridgeMasks k.kB k.kE = none ∧
      V.sumEquation gens c k v = true ∧
      (∃ last, c.bridges.getLast? = some last ∧ V.productEquation gens c k e v last = true) ∧
      V.reencryptionEquation c k e v = .ok true := by
  rw [checkEquations]
  cases c.bridges.getLast? with
  | none => simp
  | some last =>
      cases firstBrokenBridge V.group v gens.h0 c.bridges c.bridgeMasks k.kB k.kE with
      | some row => simp [bind_eq_ok_iff]
      | none => simp [bind_eq_ok_iff, check_eq_accepted_iff]

/-- The equations hold exactly when the reply is accepted for the masks. -/
theorem checkEquations_eq_accepted_iff (hw : 0 < w) (I : Relation G (n + 1) w) (engine : Engine)
    (d : Scalar) (masks : Sides G (n + 1) w) (k : Opening (n + 1) w) (v : Scalar) :
    (I.verifier engine).checkEquations I.derived (I.commitment d masks) (Opening.reply k)
        (List.ofFn I.e) v = .ok .accepted ↔
      LinearRelation.Accepts I.sides I.target masks v k := by
  obtain ⟨holdsA, hpermutation, hiffA⟩ := permutationEquation_eq I engine d masks k v
  obtain ⟨holdsF, hreencryption, hiffF⟩ := reencryptionEquation_eq hw I engine d masks k v
  have hlast : (I.commitment d masks).bridges.getLast? = some (I.bridges (Fin.last n)).element :=
    getLast?_ofFn fun i => (I.bridges i).element
  have hproduct := productEquation_iff I engine d masks k v
  rw [checkEquations_eq_ok_accepted_iff, hpermutation, hreencryption, hlast,
    sumEquation_iff I engine d masks k v]
  have hbridge := firstBrokenBridge_relation I masks k v
  simp only [Except.ok.injEq, hiffA, hiffF, Option.some.injEq, exists_eq_left', hproduct]
  constructor
  · rintro ⟨hA, hB, hC, hD, hF⟩
    exact Prod.ext hA (Prod.ext (hbridge.mp hB) (Prod.ext hC (Prod.ext hD hF)))
  · intro h
    have hsides : I.leftSides masks v = I.sides k := h
    rw [hsides]
    exact ⟨rfl, hbridge.mpr (congrArg (fun x => x.2.1) hsides), rfl, rfl, rfl⟩

/-- The verdict names the first equation whose sides differ. -/
theorem checkEquations_of_firstDifference (hw : 0 < w) (I : Relation G (n + 1) w)
    (engine : Engine) (d : Scalar) (masks : Sides G (n + 1) w) (k : Opening (n + 1) w)
    (v : Scalar) {reason : Rejection}
    (h : FirstDifference (I.leftSides masks v) (I.sides k) reason) :
    (I.verifier engine).checkEquations I.derived (I.commitment d masks) (Opening.reply k)
        (List.ofFn I.e) v = .ok (.rejected reason) := by
  obtain ⟨holdsA, hpermutation, hiffA⟩ := permutationEquation_eq I engine d masks k v
  obtain ⟨holdsF, hreencryption, hiffF⟩ := reencryptionEquation_eq hw I engine d masks k v
  have hlast : (I.commitment d masks).bridges.getLast? = some (I.bridges (Fin.last n)).element :=
    getLast?_ofFn fun i => (I.bridges i).element
  have hsum := sumEquation_iff I engine d masks k v
  have hproduct := productEquation_iff I engine d masks k v
  have hbridge : ∀ hB : (I.leftSides masks v).2.1 = (I.sides k).2.1,
      firstBrokenBridge (I.verifier engine).group v I.derived.h0 (I.commitment d masks).bridges
        (I.commitment d masks).bridgeMasks (Opening.reply k).kB (Opening.reply k).kE = none :=
    (firstBrokenBridge_relation I masks k v).mpr
  rw [checkEquations, hlast, hpermutation, hreencryption]
  simp only [ok_bind, pure_eq_ok]
  cases h with
  | permutationCommitment hA =>
      rw [if_neg fun h => hA (hiffA.mp h)]
  | bridge i hA hbefore hB =>
      have hbroken : firstBrokenBridge (I.verifier engine).group v I.derived.h0
          (I.commitment d masks).bridges (I.commitment d masks).bridgeMasks (Opening.reply k).kB
          (Opening.reply k).kE = some i.val :=
        firstBrokenBridge_eq_some I.h0 v I.bridges masks.2.1 k.2.1 k.2.2.2.2.1 i hbefore hB
      simp only [hiffA.mpr hA, hbroken, if_true]
  | commitmentSum hA hB hC =>
      simp only [hiffA.mpr hA, hbridge hB, if_true]
      rw [if_neg fun h => hC (hsum.mp h)]
  | bridgeProduct hA hB hC hD =>
      simp only [hiffA.mpr hA, hbridge hB, hsum.mpr hC, if_true]
      rw [if_neg fun h => hD (hproduct.mp h)]
  | reencryption hA hB hC hD hF =>
      simp only [hiffA.mpr hA, hbridge hB, hsum.mpr hC, hproduct.mpr hD, if_true]
      rw [if_neg fun h => hF (hiffF.mp h)]

/-- When all equations but the last hold, the last decides. -/
theorem checkEquations_of_sides_eq (hw : 0 < w) (I : Relation G (n + 1) w) (engine : Engine)
    (d : Scalar) (masks : Sides G (n + 1) w) (k : Opening (n + 1) w) (v : Scalar)
    (hA : (I.leftSides masks v).1 = (I.sides k).1)
    (hB : (I.leftSides masks v).2.1 = (I.sides k).2.1)
    (hC : (I.leftSides masks v).2.2.1 = (I.sides k).2.2.1)
    (hD : (I.leftSides masks v).2.2.2.1 = (I.sides k).2.2.2.1) :
    (I.verifier engine).checkEquations I.derived (I.commitment d masks) (Opening.reply k)
        (List.ofFn I.e) v = .ok .accepted ∧
        (I.leftSides masks v).2.2.2.2 = (I.sides k).2.2.2.2 ∨
    (I.verifier engine).checkEquations I.derived (I.commitment d masks) (Opening.reply k)
        (List.ofFn I.e) v = .ok (.rejected .reencryption) ∧
        (I.leftSides masks v).2.2.2.2 ≠ (I.sides k).2.2.2.2 := by
  by_cases hF : (I.leftSides masks v).2.2.2.2 = (I.sides k).2.2.2.2
  · have haccepts : LinearRelation.Accepts I.sides I.target masks v k :=
      Prod.ext hA (Prod.ext hB (Prod.ext hC (Prod.ext hD hF)))
    exact .inl ⟨(checkEquations_eq_accepted_iff hw I engine d masks k v).mpr haccepts, hF⟩
  · have hdifference := FirstDifference.reencryption hA hB hC hD hF
    exact .inr ⟨checkEquations_of_firstDifference hw I engine d masks k v hdifference, hF⟩

/-! ## The verdict on a proof -/

/-- A proof whose batching vector is that of the transcript is judged by the equations. -/
theorem verify_eq (O : Oracle) (I : Relation G (n + 1) w) (engine : Engine) (mixName : String)
    (d : Scalar) (masks : Sides G (n + 1) w) (k : Opening (n + 1) w) (t : O.State)
    (hgens : Generators.deriveAll O G mixName none (n + 1) = .ok I.derived)
    (he : batchingVector O G mixName I.derived (elements I.u) I.statement = (List.ofFn I.e, t)) :
    (I.verifier engine).verify O
        { mixName, commitment := I.commitment d masks, reply := Opening.reply k } =
      (I.verifier engine).checkEquations I.derived (I.commitment d masks) (Opening.reply k)
        (List.ofFn I.e) (replyChallenge O G t (I.commitment d masks)) := by
  have hcount : (I.verifier engine).rowCount = n + 1 := length_rowSet I.rows
  have hvalid := ShuffleProof.validate_commitmentOf mixName I.u d I.e I.bridges masks k
  rw [verify, hcount]
  show (ShuffleProof.validate G
    ⟨mixName, commitmentOf I.u d I.e I.bridges masks, Opening.reply k⟩ (n + 1) w >>= _) = _
  rw [hvalid, ok_bind]
  show (Generators.deriveAll O G mixName none (n + 1) >>= _) = _
  rw [hgens, ok_bind]
  have hbatch : batchingVector O (I.verifier engine).group mixName I.derived
      (I.commitment d masks).u (I.verifier engine).statement = (List.ofFn I.e, t) := he
  simp only [hbatch]
  exact if_pos rfl

/-- What gets a verdict has passed the validation. -/
theorem validate_of_verify {O : Oracle} {V : Verifier} {proof : ShuffleProof} {verdict : Verdict}
    (h : V.verify O proof = .ok verdict) :
    proof.validate V.group V.rowCount V.width = .ok () := by
  obtain ⟨_, hvalid, _⟩ := bind_eq_ok_iff.mp h
  exact hvalid

/-- A proof that was accepted is about a relation, with the batching vector of the
transcript. -/
theorem exists_relation_of_accepted {O : Oracle} (hp : G.p.Prime) {engine : Engine}
    {st : Statement} {V : Verifier} (hV : create engine G st = .ok V) {proof : ShuffleProof}
    (h : V.verify O proof = .ok .accepted) :
    ∃ (n w : Nat) (I : Relation G (n + 1) w) (masks : Sides G (n + 1) w) (k : Opening (n + 1) w)
      (t : O.State), 0 < w ∧ V = I.verifier engine ∧
        proof.commitment = I.commitment proof.commitment.d masks ∧
        proof.reply = Opening.reply k ∧
        Generators.deriveAll O G proof.mixName none (n + 1) = .ok I.derived ∧
        batchingVector O G proof.mixName I.derived (elements I.u) I.statement =
          (List.ofFn I.e, t) := by
  have hvalid := validate_of_verify h
  obtain ⟨n, w, pk, R, M, hw, rfl, rfl⟩ := create_eq_ok_iff.mp hV
  have hcount : rowCount ⟨engine, G, statementOf pk R M, w⟩ = n + 1 := length_rowSet R
  rw [hcount] at hvalid
  obtain ⟨u, e, B, masks, k, hc, hk⟩ := ShuffleProof.exists_of_validate hvalid
  obtain ⟨_, _, hrest⟩ := bind_eq_ok_iff.mp h
  obtain ⟨gens, hgens, hverdict⟩ := bind_eq_ok_iff.mp hrest
  rw [hcount] at hgens
  obtain ⟨h0, x, rfl⟩ := Generators.exists_generatorsOf_of_deriveAll hp hgens
  let I : Relation G (n + 1) w :=
    { h0, generators := x, pk, rows := R, mixed := M, u, e, bridges := B }
  have hu : proof.commitment.u = elements u := by rw [hc]; rfl
  have he : proof.commitment.e = List.ofFn e := by rw [hc]; rfl
  rw [hu, he] at hverdict
  let batch := batchingVector O G proof.mixName I.derived (elements u) I.statement
  by_cases hbatch : batch.1 = List.ofFn e
  · exact ⟨n, w, I, masks, k, batch.2, hw, rfl, hc, hk, hgens, Prod.ext hbatch rfl⟩
  · have hrejected := (if_neg hbatch).symm.trans hverdict
    cases hrejected

end Verifier

end VerifiableMix
