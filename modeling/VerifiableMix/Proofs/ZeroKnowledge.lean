import Mathlib.Data.Set.Function
import VerifiableMix.Proofs.Proof.Verdict
import VerifiableMix.Proofs.Scalar.Prime

/-!
# Conversations without a witness

Whoever knows the challenge `v` in advance needs no witness: each equation has
one mask in it, to the first power, so for any reply there is exactly one choice
of masks with which the equations hold.  The statement can be false.

The prover of a true statement gives no other conversations than these.  With
the nonces of its commitments fixed, the rest of its coins are the exponents `ρ`
of the masks, and its reply is `v • ω + ρ`: every reply comes from exactly one
`ρ`.  Uniform coins thus give a uniform reply, and the masks are those that the
reply asks for.

## Main results

* `Verifier.existsUnique_completes` — every reply has its masks.
* `Prover.bijOn_replyAt` — every reply has its coins.
* `Session.exists_conversations` — the conversations of a prover are those.
* `zeroKnowledge_at_challenge` — both, for what the checks let through.
-/

namespace VerifiableMix

open VerifiableMix.Group Failure ScalarVector

variable {G : Group} {n w : Nat}

/-! ## Masks -/

/-- The masks of a first message. -/
structure ProofMasks where
  maskA : Element
  bridgeMasks : ElementVector
  maskC : Element
  maskD : Element
  rowMask : Row
deriving DecidableEq, Repr

/-- The first message with other masks. -/
def ProofCommitment.withMasks (c : ProofCommitment) (masks : ProofMasks) : ProofCommitment :=
  { c with
    maskA := masks.maskA
    bridgeMasks := masks.bridgeMasks
    maskC := masks.maskC
    maskD := masks.maskD
    rowMask := masks.rowMask }

/-- The masks are members, in the lengths for `n` rows of width `w`. -/
structure ProofMasks.AreMembers (masks : ProofMasks) (G : Group) (n w : Nat) : Prop where
  maskA : G.checkElement masks.maskA = .ok ()
  length_bridgeMasks : masks.bridgeMasks.length = n
  bridgeMasks : masks.bridgeMasks.validate G = .ok ()
  maskC : G.checkElement masks.maskC = .ok ()
  maskD : G.checkElement masks.maskD = .ok ()
  length_rowMask : masks.rowMask.length = w
  rowMask : masks.rowMask.validate G = .ok ()

/-- What a first message holds besides its masks fits `n` rows: there are `n`
commitments and `n` bridges, all members, and `n` weights. -/
structure ProofCommitment.Prepared (c : ProofCommitment) (G : Group) (n : Nat) : Prop where
  length_u : c.u.length = n
  u : c.u.validate G = .ok ()
  length_e : c.e.length = n
  length_bridges : c.bridges.length = n
  bridges : c.bridges.validate G = .ok ()

/-- The vectors of a reply have the lengths for `n` rows of width `w`. -/
structure ProofReply.Fits (k : ProofReply) (n w : Nat) : Prop where
  kB : k.kB.length = n
  kE : k.kE.length = n
  kF : k.kF.length = w

/-- The masks complete a first message for a reply at a challenge: they are
members, and all equations hold. -/
structure Verifier.Completes (V : Verifier) (gens : Generators) (c : ProofCommitment)
    (k : ProofReply) (v : Scalar) (masks : ProofMasks) : Prop where
  areMembers : masks.AreMembers V.group V.rowCount V.width
  equations : V.checkEquations gens (c.withMasks masks) k c.e v = .ok .accepted

namespace ProofMasks

/-- The masks with given members. -/
def ofSides (masks : Sides G n w) : ProofMasks :=
  { maskA := masks.1.element
    bridgeMasks := elements masks.2.1
    maskC := masks.2.2.1.element
    maskD := masks.2.2.2.1.element
    rowMask := row masks.2.2.2.2 }

theorem areMembers_ofSides (masks : Sides G n w) : (ofSides masks).AreMembers G n w where
  maskA := checkElement_eq_ok_iff.mpr masks.1.isMember
  length_bridgeMasks := length_elements _
  bridgeMasks := validate_elements _
  maskC := checkElement_eq_ok_iff.mpr masks.2.2.1.isMember
  maskD := checkElement_eq_ok_iff.mpr masks.2.2.2.1.isMember
  length_rowMask := length_row _
  rowMask := Row.validate_row _

/-- Masks that are members are one side of the equations. -/
theorem AreMembers.exists_eq {masks : ProofMasks} (h : masks.AreMembers G n w) :
    ∃ sides : Sides G n w, masks = ofSides sides := by
  obtain ⟨maskA, bridgeMasks, maskC, maskD, rowMask⟩ := masks
  obtain ⟨B', rfl⟩ := exists_elements h.length_bridgeMasks h.bridgeMasks
  obtain ⟨F', rfl⟩ := Row.exists_row h.length_rowMask h.rowMask
  let A' : Member G := ⟨maskA, checkElement_eq_ok_iff.mp h.maskA⟩
  let C' : Member G := ⟨maskC, checkElement_eq_ok_iff.mp h.maskC⟩
  let D' : Member G := ⟨maskD, checkElement_eq_ok_iff.mp h.maskD⟩
  exact ⟨(A', B', C', D', F'), rfl⟩

end ProofMasks

/-! ## Replies -/

namespace Opening

theorem fits_reply (k : Opening n w) : (reply k).Fits n w := by
  constructor <;> exact List.length_ofFn

theorem reply_injective : Function.Injective (reply : Opening n w → ProofReply) := by
  intro k k' h
  have hkB := List.ofFn_injective (congrArg ProofReply.kB h)
  have hkE := List.ofFn_injective (congrArg ProofReply.kE h)
  have hkF := List.ofFn_injective (congrArg ProofReply.kF h)
  have hkC : k.2.2.1 = k'.2.2.1 := congrArg ProofReply.kC h
  have hkD : k.2.2.2.1 = k'.2.2.2.1 := congrArg ProofReply.kD h
  exact Prod.ext (congrArg ProofReply.kA h)
    (Prod.ext hkB (Prod.ext hkC (Prod.ext hkD (Prod.ext hkE hkF))))

end Opening

/-- A reply of the right lengths is made of families. -/
theorem ProofReply.Fits.exists_eq {k : ProofReply} (h : k.Fits n w) :
    ∃ opening : Opening n w, k = Opening.reply opening := by
  obtain ⟨kA, kB, kC, kD, kE, kF⟩ := k
  obtain ⟨b, rfl⟩ := exists_eq_ofFn h.kB
  obtain ⟨weights, rfl⟩ := exists_eq_ofFn h.kE
  obtain ⟨f, rfl⟩ := exists_eq_ofFn h.kF
  exact ⟨(kA, b, kC, kD, weights, f), rfl⟩

/-! ## Every reply has its masks -/

/-- Of a message for a relation the masks that complete it are those with which
the reply is accepted. -/
theorem Verifier.completes_ofSides_iff (hw : 0 < w) (I : Relation G (n + 1) w) (engine : Engine)
    {c : ProofCommitment} (hu : c.u = elements I.u) (he : c.e = List.ofFn I.e)
    (hB : c.bridges = elements I.bridges) (masks : Sides G (n + 1) w) (k : Opening (n + 1) w)
    (v : Scalar) :
    (I.verifier engine).Completes I.derived c (Opening.reply k) v (ProofMasks.ofSides masks) ↔
      LinearRelation.Accepts I.sides I.target masks v k := by
  have hcount : (I.verifier engine).rowCount = n + 1 := length_rowSet I.rows
  have hmessage : c.withMasks (ProofMasks.ofSides masks) = I.commitment c.d masks := by
    rw [ProofCommitment.withMasks, hu, he, hB]
    rfl
  have hequations := checkEquations_eq_accepted_iff hw I engine c.d masks k v
  rw [← hmessage, ← he] at hequations
  rw [← hequations]
  constructor
  · intro h
    exact h.equations
  · intro h
    refine ⟨?_, h⟩
    rw [hcount]
    exact ProofMasks.areMembers_ofSides masks

/-- Every reply has exactly one choice of masks with which it is accepted, whether
the statement is true or not. -/
theorem Verifier.existsUnique_completes {engine : Engine} {st : Statement} {V : Verifier}
    (hV : Verifier.create engine G st = .ok V) {gens : Generators}
    (hlength : gens.rows.length = st.rows.length) (hbase : G.IsMember gens.h0)
    (hrows : ∀ x ∈ gens.rows, G.IsMember x) {c : ProofCommitment}
    (hc : c.Prepared G st.rows.length) {k : ProofReply} (hk : k.Fits st.rows.length V.width)
    (v : Scalar) : ∃! masks, V.Completes gens c k v masks := by
  obtain ⟨n, w, pk, R, M, hw, rfl, rfl⟩ := Verifier.create_eq_ok_iff.mp hV
  have hcount : (statementOf pk R M).rows.length = n + 1 := length_rowSet R
  rw [hcount] at hlength hc hk
  obtain ⟨h0, x, rfl⟩ := Generators.exists_generatorsOf hlength hbase hrows
  obtain ⟨reply, rfl⟩ := hk.exists_eq
  obtain ⟨u, hu⟩ := exists_elements hc.length_u hc.u
  obtain ⟨B, hB⟩ := exists_elements hc.length_bridges hc.bridges
  obtain ⟨e, he⟩ := exists_eq_ofFn hc.length_e
  let I : Relation G (n + 1) w :=
    { h0, generators := x, pk, rows := R, mixed := M, u, e, bridges := B }
  have hcompletes := fun masks => completes_ofSides_iff hw I engine hu he hB masks reply v
  obtain ⟨masks, haccepts, hunique⟩ := LinearRelation.existsUnique_masks I.sides I.target v reply
  refine ⟨ProofMasks.ofSides masks, (hcompletes masks).mpr haccepts, fun masks' h => ?_⟩
  have hmembers : masks'.AreMembers G (n + 1) w := hcount ▸ h.areMembers
  obtain ⟨sides, rfl⟩ := hmembers.exists_eq
  rw [hunique sides ((hcompletes sides).mp h)]

/-! ## Every reply has its coins -/

/-- The reply to a challenge that is known before the commitment. -/
def Prover.replyAt (O : Oracle) (P : Prover) (v : Scalar) (coins : Coins) :
    Except Error ProofReply := do
  let state ← P.commit O coins
  P.reply state v

/-- The coins with given nonces, the exponents of the masks being free. -/
def Coins.withNonces (r b : ScalarVector) (n w : Nat) : Set Coins :=
  {coins | coins.Fits n w ∧ coins.permutationNonces = r ∧ coins.b = b}

theorem Coins.mem_withNonces_iff {r b : Fin n → Scalar} {coins : Coins} :
    coins ∈ Coins.withNonces (List.ofFn r) (List.ofFn b) n w ↔
      ∃ ρ : Opening n w, coins = Coins.ofFamilies r b ρ := by
  constructor
  · rintro ⟨hfits, hr, hb⟩
    obtain ⟨r', b', ρ, rfl⟩ := hfits.exists_eq
    obtain rfl : r' = r := List.ofFn_injective hr
    obtain rfl : b' = b := List.ofFn_injective hb
    exact ⟨ρ, rfl⟩
  · rintro ⟨ρ, rfl⟩
    exact ⟨Coins.fits_ofFamilies r b ρ, rfl, rfl⟩

/-- A prover who replies `v • ω + ρ` gives every reply for exactly one `ρ`. -/
theorem Prover.bijOn_replyAt {O : Oracle} {P : Prover} {v : Scalar} {r b : Fin n → Scalar}
    {ω : Opening n w}
    (h : ∀ ρ, P.replyAt O v (Coins.ofFamilies r b ρ) = .ok (Opening.reply (v • ω + ρ))) :
    Set.BijOn (P.replyAt O v) (Coins.withNonces (List.ofFn r) (List.ofFn b) n w)
      (.ok '' {k : ProofReply | k.Fits n w}) := by
  refine ⟨?mapsTo, ?injOn, ?surjOn⟩
  case mapsTo =>
    intro coins hcoins
    obtain ⟨ρ, rfl⟩ := Coins.mem_withNonces_iff.mp hcoins
    rw [h]
    exact Set.mem_image_of_mem _ (Opening.fits_reply _)
  case injOn =>
    intro coins hcoins coins' hcoins' hequal
    obtain ⟨ρ, rfl⟩ := Coins.mem_withNonces_iff.mp hcoins
    obtain ⟨ρ', rfl⟩ := Coins.mem_withNonces_iff.mp hcoins'
    rw [h, h] at hequal
    have hreply := Opening.reply_injective (Except.ok.inj hequal)
    rw [add_left_cancel hreply]
  case surjOn =>
    rintro _ ⟨k, hk, rfl⟩
    obtain ⟨opening, rfl⟩ := ProofReply.Fits.exists_eq hk
    refine ⟨Coins.ofFamilies r b (opening - v • ω), Coins.mem_withNonces_iff.mpr ⟨_, rfl⟩, ?_⟩
    rw [h, add_sub_cancel]

/-! ## Conversations at a challenge -/

/-- What a prover keeps of the first round is fixed by the nonces, masks apart.  The
masks are those that its reply asks for, and it gives every reply. -/
theorem Session.exists_conversations (O : Oracle) (hw : 0 < w) (s : Session G n w)
    (h : s.mixed = s.honest) (proverEngine verifierEngine : Engine) (mixName : String)
    (psi : Permutation) (nonces : ScalarMatrix) (hpsi : psi.size = n + 1)
    (hpi : s.pi = psi.toPerm hpsi) (hrows : nonces.rows = n + 1) (hcols : nonces.cols = w)
    (hnonces : s.nonces = nonces.family hrows hcols)
    (hgens : Generators.deriveAll O G mixName none (n + 1) = .ok s.derived) :
    let P := s.prover proverEngine mixName psi nonces
    let V : Verifier := ⟨verifierEngine, G, s.statement, w⟩
    let allCoins := Coins.withNonces (List.ofFn s.r) (List.ofFn s.b) (n + 1) w
    ∃ base : ProverState O, base.commitment.Prepared G (n + 1) ∧ ∀ v,
      Set.BijOn (P.replyAt O v) allCoins (.ok '' {k : ProofReply | k.Fits (n + 1) w}) ∧
      ∀ coins ∈ allCoins, ∃ masks reply,
        P.commit O coins =
          .ok { base with commitment := base.commitment.withMasks masks, coins } ∧
        P.replyAt O v coins = .ok reply ∧
        V.Completes s.derived base.commitment reply v masks := by
  intro P V allCoins
  obtain ⟨e, t, he⟩ := s.exists_batchingVector O mixName
  let base : ProverState O :=
    { transcript := t
      commitment := (s.relation e).commitment (s.exponents e (Fin.last n)) 0
      weights := List.ofFn (s.weights e)
      coins := Coins.ofFamilies s.r s.b (0 : Opening (n + 1) w) }
  have hprepared : base.commitment.Prepared G (n + 1) :=
    ⟨length_elements _, validate_elements _, List.length_ofFn, length_elements _,
      validate_elements _⟩
  have hcommit := s.commit_eq e O hw proverEngine mixName psi nonces hpsi hpi t hgens he
  have hreply : ∀ (v : Scalar) (ρ : Opening (n + 1) w),
      P.replyAt O v (Coins.ofFamilies s.r s.b ρ) = .ok (Opening.reply (v • s.opening e + ρ)) := by
    intro v ρ
    rw [Prover.replyAt, hcommit ρ, ok_bind,
      s.reply_eq e proverEngine mixName psi nonces hrows hcols hnonces]
  refine ⟨base, hprepared, fun v => ⟨Prover.bijOn_replyAt (hreply v), fun coins hcoins => ?_⟩⟩
  obtain ⟨ρ, rfl⟩ := Coins.mem_withNonces_iff.mp hcoins
  have haccepts := s.accepts_of_honest e h ρ v
  refine ⟨ProofMasks.ofSides ((s.relation e).sides ρ), _, hcommit ρ, hreply v ρ, ?_⟩
  exact (Verifier.completes_ofSides_iff hw (s.relation e) verifierEngine rfl rfl rfl _ _ v).mpr
    haccepts

/-- At a challenge that is known in advance every reply completes to an accepted
conversation in exactly one way, and the prover of a shuffle gives all of these,
each for exactly one choice of the exponents of the masks. -/
theorem zeroKnowledge_at_challenge (O : Oracle) (hp : G.p.Prime) (mixName : String) :
    (∀ {engine : Engine} {st : Statement} {V : Verifier} {gens : Generators},
      Verifier.create engine G st = .ok V →
      Generators.deriveAll O G mixName none st.rows.length = .ok gens →
      ∀ (c : ProofCommitment) (k : ProofReply) (v : Scalar), c.Prepared G st.rows.length →
        k.Fits st.rows.length V.width → ∃! masks, V.Completes gens c k v masks) ∧
    (∀ {pk : PublicKey} {rows : List Row} {psi : Permutation} {nonces : ScalarMatrix}
      {shuffle : Shuffle} {gens : Generators}, G.checkElement pk.key = .ok () →
      (∀ row ∈ rows, row.validate G = .ok ()) →
      Shuffle.create G rows pk psi nonces = .ok shuffle →
      Generators.deriveAll O G mixName none rows.length = .ok gens →
      ∀ proverEngine verifierEngine : Engine, ∃ P V,
        Prover.ofShuffle proverEngine G mixName pk rows shuffle = .ok P ∧
        Verifier.create verifierEngine G ⟨pk, rows, shuffle.mixed⟩ = .ok V ∧
        ∀ r b : ScalarVector, r.length = rows.length → b.length = rows.length →
          ∃ base : ProverState O, base.commitment.Prepared G rows.length ∧ ∀ v,
            Set.BijOn (P.replyAt O v) (Coins.withNonces r b rows.length nonces.cols)
              (.ok '' {k : ProofReply | k.Fits rows.length nonces.cols}) ∧
            ∀ coins ∈ Coins.withNonces r b rows.length nonces.cols, ∃ masks reply,
              P.commit O coins =
                .ok { base with commitment := base.commitment.withMasks masks, coins } ∧
              P.replyAt O v coins = .ok reply ∧
              V.Completes gens base.commitment reply v masks) := by
  constructor
  · intro engine st V gens hV hgens c k v hc hk
    obtain ⟨hbase, hrows⟩ := Generators.isMember_of_deriveAll hp hgens
    exact Verifier.existsUnique_completes hV (Generators.length_of_deriveAll hgens) hbase hrows
      hc hk v
  · intro pk rows psi nonces shuffle gens hpk hmembers hshuffle hgens proverEngine verifierEngine
    obtain ⟨hwidth, hpsi, hrows⟩ := Shuffle.shape_of_create hshuffle
    obtain ⟨n, R, hw, rfl⟩ := exists_rowSet_of_rowWidth hwidth hmembers
    rw [length_rowSet] at hgens hpsi hrows ⊢
    obtain ⟨h0, x, rfl⟩ := Generators.exists_generatorsOf_of_deriveAll hp hgens
    obtain ⟨key⟩ := pk
    let pk : Member G := ⟨key, checkElement_eq_ok_iff.mp hpk⟩
    let S := nonces.family hrows rfl
    let M := Shuffle.output pk R (psi.toPerm hpsi) S
    obtain rfl := Except.ok.inj
      (hshuffle.symm.trans (Shuffle.create_rowSet pk hw R psi nonces hpsi hrows rfl))
    have hprover : Prover.create proverEngine G mixName (statementOf pk R M) psi nonces =
        .ok ⟨proverEngine, G, mixName, statementOf pk R M, psi, nonces⟩ :=
      (Prover.create_eq_ok_iff hw).mpr ⟨hpsi, hrows, rfl, rfl⟩
    have hverifier : Verifier.create verifierEngine G (statementOf pk R M) =
        .ok ⟨verifierEngine, G, statementOf pk R M, nonces.cols⟩ :=
      Verifier.create_eq_ok_iff.mpr ⟨n, nonces.cols, pk, R, M, hw, rfl, rfl⟩
    refine ⟨_, _, hprover, hverifier, fun r b hr hb => ?_⟩
    obtain ⟨r, rfl⟩ := exists_eq_ofFn hr
    obtain ⟨b, rfl⟩ := exists_eq_ofFn hb
    let s : Session G n nonces.cols :=
      { h0, generators := x, pk, rows := R, mixed := M, pi := psi.toPerm hpsi, nonces := S, r, b }
    exact s.exists_conversations O hw rfl proverEngine verifierEngine mixName psi nonces hpsi rfl
      hrows rfl rfl hgens

/-- Two rows change places: a reply made up at the challenge 9 has its masks, and the
prover gives all replies there. -/
theorem zeroKnowledge_at_challenge_swap :
    let x := Group.test.generator
    let c : ProofCommitment := ⟨[x, x], 0, [1, 1], [x, x], x, [x, x], x, x, [⟨x, x⟩]⟩
    ∃ gens shuffle P V,
      Generators.deriveAll Oracle.standard Group.test "mix" none 2 = .ok gens ∧
      Shuffle.create Group.test testRows ⟨x⟩ ⟨2, #v[1, 0], #v[1, 0], by decide, by decide⟩
        ⟨2, 1, Vector.replicate _ 5⟩ = .ok shuffle ∧
      Prover.ofShuffle ⟨1, .direct, 0⟩ Group.test "mix" ⟨x⟩ testRows shuffle = .ok P ∧
      Verifier.create ⟨4, .windowed, 0⟩ Group.test ⟨⟨x⟩, testRows, shuffle.mixed⟩ = .ok V ∧
      (∃! masks, V.Completes gens c ⟨1, [2, 3], 4, 5, [6, 7], [8]⟩ 9 masks) ∧
      Set.BijOn (P.replyAt Oracle.standard 9) (Coins.withNonces [1, 2] [3, 4] 2 1)
        (.ok '' {k : ProofReply | k.Fits 2 1}) := by
  intro x c
  obtain ⟨gens, hgens⟩ := Generators.exists_deriveAll_test
  let g := Member.generator Group.test
  let psi : Permutation := ⟨2, #v[1, 0], #v[1, 0], by decide, by decide⟩
  let nonces : ScalarMatrix := ⟨2, 1, Vector.replicate _ 5⟩
  let R : Fin 2 → Fin 1 → Cipher Group.test := fun _ _ => zeroBase g
  let M := Shuffle.output g R (psi.toPerm rfl) (nonces.family rfl rfl)
  have hpk : Group.test.checkElement x = .ok () := checkElement_eq_ok_iff.mpr g.isMember
  have hshuffle := Shuffle.create_rowSet g Nat.one_pos R psi nonces rfl rfl rfl
  have hV : Verifier.create ⟨4, .windowed, 0⟩ Group.test (statementOf g R M) =
      .ok ⟨⟨4, .windowed, 0⟩, Group.test, statementOf g R M, 1⟩ :=
    Verifier.create_eq_ok_iff.mpr ⟨1, 1, g, R, M, Nat.one_pos, rfl, rfl⟩
  have hc : c.Prepared Group.test 2 :=
    ⟨rfl, validate_elements fun _ : Fin 2 => g, rfl, rfl, validate_elements fun _ : Fin 2 => g⟩
  obtain ⟨hmasks, hreplies⟩ := zeroKnowledge_at_challenge Oracle.standard prime_testModulus "mix"
  obtain ⟨P, V, hP, hV', hcoins⟩ := hreplies hpk validate_testRows hshuffle hgens ⟨1, .direct, 0⟩
    ⟨4, .windowed, 0⟩
  obtain rfl := Except.ok.inj (hV.symm.trans hV')
  obtain ⟨_, _, hreply⟩ := hcoins [1, 2] [3, 4] rfl rfl
  exact ⟨gens, _, P, _, hgens, hshuffle, hP, hV, hmasks hV hgens c _ 9 hc ⟨rfl, rfl, rfl⟩,
    (hreply 9).1⟩

end VerifiableMix
