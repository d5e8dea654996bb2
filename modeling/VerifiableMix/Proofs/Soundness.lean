import VerifiableMix.Proofs.Commitment.Chain
import VerifiableMix.Proofs.Proof.Verdict

/-!
# Two accepted replies open the commitments

The same first message with two replies, accepted at challenges whose difference
can be inverted, gives the slope of the replies, and the slope is an opening of
everything the equations are about.  One vector of exponents, the slope of `kE`,
stands in three of the equations: it weighs the generators in the permutation
commitment, it is what the bridges commit to, and it weighs the mixed rows.

Nothing is asked of the modulus here, as long as the generators are members.

## Main results

* `CommitmentOpening` — what an opening says of a first message.
* `commitmentOpening_of_sides` — an opening of the relation is one.
* `commitmentOpening_of_accepted` — the slope of two accepted replies is one.
-/

namespace VerifiableMix

open VerifiableMix.Group Failure ScalarVector

variable {G : Group} {n w : Nat}

/-! ## Slopes -/

/-- The difference of two replies, times the inverse of the difference of their
challenges. -/
def ProofReply.slope (k k' : ProofReply) (inverse : Scalar) : ProofReply :=
  let quotient : Scalar → Scalar → Scalar := fun x y => (x - y) * inverse
  { kA := quotient k.kA k'.kA
    kB := List.zipWith quotient k.kB k'.kB
    kC := quotient k.kC k'.kC
    kD := quotient k.kD k'.kD
    kE := List.zipWith quotient k.kE k'.kE
    kF := List.zipWith quotient k.kF k'.kF }

theorem Opening.slope_reply (k k' : Opening n w) (inverse : Scalar) :
    (Opening.reply k).slope (Opening.reply k') inverse =
      Opening.reply (inverse • (k - k')) := by
  simp only [ProofReply.slope, Opening.reply, zipWith_ofFn, mul_comm _ inverse]
  rfl

/-! ## Openings of a first message -/

/-- What an opening says of a first message, for the letters of the replies. -/
structure CommitmentOpening (V : Verifier) (gens : Generators) (c : ProofCommitment)
    (opening : ProofReply) : Prop where
  /-- `∏ uⱼ ^ eⱼ = g ^ a * ∏ hᵢ ^ wᵢ`. -/
  permutation :
    V.group.prod (List.zipWith V.group.pow c.u c.e) =
      V.group.mul (V.group.gpow opening.kA)
        (V.group.prod (List.zipWith V.group.pow gens.rows opening.kE))
  /-- `∏ uⱼ = g ^ c * ∏ hᵢ`. -/
  sum : V.group.prod c.u = V.group.mul (V.group.gpow opening.kC) (V.group.prod gens.rows)
  /-- `Bᵢ = g ^ bᵢ * Bᵢ₋₁ ^ wᵢ` with `B₋₁ = h₀`. -/
  bridges : CommitmentChain.links V.group gens.h0 opening.kE opening.kB = .ok c.bridges
  /-- The last bridge in two ways: with the product of the weights and with that
  of the batching vector. -/
  last : ∃ xs x bridge, opening.kB.recurrence opening.kE = .ok xs ∧ xs.getLast? = some x ∧
    c.bridges.getLast? = some bridge ∧
    bridge = V.group.mul (V.group.gpow x) (V.group.pow gens.h0 opening.kE.product) ∧
    bridge = V.group.mul (V.group.gpow opening.kD) (V.group.pow gens.h0 c.e.product) ∧
    V.group.gpow (x - opening.kD) = V.group.pow gens.h0 (c.e.product - opening.kE.product)
  /-- `∏ rowᵢ ^ eᵢ = Enc(0; -f) * ∏ mixedⱼ ^ wⱼ`, column by column. -/
  rows : ∃ F M, plainColumnPower V.group V.statement.rows c.e = .ok F ∧
    plainColumnPower V.group V.statement.mixed opening.kE = .ok M ∧
    (Row.encryptZeroNeg V.group V.statement.pk opening.kF).mul V.group M = .ok F

/-- A product of powers of members. -/
theorem Group.prod_pow_elements (x : Fin n → Member G) (k : Fin n → Scalar) :
    G.prod (List.zipWith G.pow (elements x) (List.ofFn k)) = (∑ i, k i • x i).element := by
  rw [elements, zipWith_ofFn]
  simp only [Member.pow_element]
  exact prod_elements fun i => k i • x i

/-- An opening of the relation opens the first message. -/
theorem commitmentOpening_of_sides (hw : 0 < w) (I : Relation G (n + 1) w) (engine : Engine)
    (d : Scalar) (masks : Sides G (n + 1) w) {ω : Opening (n + 1) w}
    (h : I.sides ω = I.target) :
    CommitmentOpening (I.verifier engine) I.derived (I.commitment d masks)
      (Opening.reply ω) := by
  obtain ⟨a, b, c, dd, weights, f⟩ := ω
  have hA : a • Member.generator G + ∑ i, weights i • I.generators i = ∑ j, I.e j • I.u j :=
    congrArg Prod.fst h
  have hB : CommitmentChain.IsChain I.h0 weights b I.bridges :=
    fun i => (congrFun (congrArg (fun x => x.2.1) h) i).symm
  have hC : c • Member.generator G = ∑ j, I.u j - ∑ i, I.generators i :=
    congrArg (fun x => x.2.2.1) h
  have hD : dd • Member.generator G = I.bridges (Fin.last n) - (∏ i, I.e i) • I.h0 :=
    congrArg (fun x => x.2.2.2.1) h
  have hF : (fun k => -(f k) • zeroBase I.pk) + ∑ j, weights j • I.mixed j =
      ∑ i, I.e i • I.rows i := congrArg (fun x => x.2.2.2.2) h
  -- The chain over the weights is unique, so its closed form gives the last bridge.
  let x := accumulate 0 b weights (Fin.last n)
  have hlast : I.bridges (Fin.last n) = x • Member.generator G + (∏ i, weights i) • I.h0 := by
    rw [CommitmentChain.isChain_unique hB (CommitmentChain.isChain_closedForm I.h0 weights b),
      CommitmentChain.last_eq]
  have hlast' : I.bridges (Fin.last n) = dd • Member.generator G + (∏ i, I.e i) • I.h0 := by
    rw [hD, sub_add_cancel]
  have hproducts : (x - dd) • Member.generator G = (∏ i, I.e i - ∏ i, weights i) • I.h0 := by
    rw [sub_smul, sub_smul, sub_eq_sub_iff_add_eq_add, ← hlast, hlast', add_comm]
  exact
    { permutation := by
        show G.prod (List.zipWith G.pow (elements I.u) (List.ofFn I.e)) =
          G.mul (G.gpow a) (G.prod (List.zipWith G.pow (elements I.generators) (List.ofFn weights)))
        rw [prod_pow_elements, prod_pow_elements, Member.gpow_eq, Member.mul_element, hA]
      sum := by
        show G.prod (elements I.u) = G.mul (G.gpow c) (G.prod (elements I.generators))
        rw [prod_elements, prod_elements, Member.gpow_eq, Member.mul_element, hC, sub_add_cancel]
      bridges := CommitmentChain.links_eq hB
      last := by
        refine ⟨_, x, (I.bridges (Fin.last n)).element, recurrence_ofFn b weights,
          getLast?_ofFn _, getLast?_ofFn fun i => (I.bridges i).element, ?_, ?_, ?_⟩
        · show _ = G.mul (G.gpow x) (G.pow I.h0.element (product (List.ofFn weights)))
          rw [product_ofFn, Member.gpow_eq, Member.pow_element, Member.mul_element, hlast]
        · show _ = G.mul (G.gpow dd) (G.pow I.h0.element (product (List.ofFn I.e)))
          rw [product_ofFn, Member.gpow_eq, Member.pow_element, Member.mul_element, hlast']
        · show G.gpow (x - dd) = G.pow I.h0.element
            (product (List.ofFn I.e) - product (List.ofFn weights))
          rw [product_ofFn, product_ofFn, Member.gpow_eq, Member.pow_element, hproducts]
      rows := by
        refine ⟨_, _, plainColumnPower_rowSet hw I.rows I.e,
          plainColumnPower_rowSet hw I.mixed weights, ?_⟩
        show (Row.encryptZeroNeg G ⟨I.pk.element⟩ (List.ofFn f)).mul G _ = _
        rw [Row.encryptZeroNeg_ofFn, Row.mul_row, hF] }

/-- The slope of two replies that are accepted for one first message opens it. -/
theorem commitmentOpening_of_accepted (O : Oracle) {st : Statement} {engine : Engine}
    {V : Verifier} {mixName : String} {gens : Generators} {c : ProofCommitment}
    {k k' : ProofReply} {v v' inverse : Scalar}
    (hV : Verifier.create engine G st = .ok V)
    (hgens : Generators.deriveAll O G mixName none st.rows.length = .ok gens)
    (hbase : G.checkElement gens.h0 = .ok ()) (hrows : gens.rows.validate G = .ok ())
    (hvalid : ShuffleProof.validate G ⟨mixName, c, k⟩ st.rows.length V.width = .ok ())
    (hvalid' : ShuffleProof.validate G ⟨mixName, c, k'⟩ st.rows.length V.width = .ok ())
    (haccepted : V.checkEquations gens c k c.e v = .ok .accepted)
    (haccepted' : V.checkEquations gens c k' c.e v' = .ok .accepted)
    (hinverse : (v - v') * inverse = 1) :
    CommitmentOpening V gens c (k.slope k' inverse) := by
  obtain ⟨n, w, pk, R, M, hw, rfl, rfl⟩ := Verifier.create_eq_ok_iff.mp hV
  have hcount : (statementOf pk R M).rows.length = n + 1 := length_rowSet R
  rw [hcount] at hgens hvalid hvalid'
  obtain ⟨x, hx⟩ := exists_elements (Generators.length_of_deriveAll hgens) hrows
  obtain ⟨h0, generatorRows⟩ := gens
  obtain rfl : generatorRows = elements x := hx
  let base : Member G := ⟨h0, checkElement_eq_ok_iff.mp hbase⟩
  obtain ⟨u, e, B, masks, reply, hc, hk⟩ := ShuffleProof.exists_of_validate hvalid
  obtain ⟨_, _, _, _, reply', _, hk'⟩ := ShuffleProof.exists_of_validate hvalid'
  let I : Relation G (n + 1) w :=
    { h0 := base, generators := x, pk, rows := R, mixed := M, u, e, bridges := B }
  obtain rfl : k = Opening.reply reply := hk
  obtain rfl : k' = Opening.reply reply' := hk'
  obtain ⟨d, hd⟩ : ∃ d, c = I.commitment d masks := ⟨c.d, hc⟩
  subst hd
  have h := (Verifier.checkEquations_eq_accepted_iff hw I engine d masks reply v).mp haccepted
  have h' := (Verifier.checkEquations_eq_accepted_iff hw I engine d masks reply' v').mp haccepted'
  rw [Opening.slope_reply]
  exact commitmentOpening_of_sides hw I engine d masks
    (LinearRelation.opens_of_accepts I.sides hinverse h h')

/-- Two honest replies for two rows that changed places, at the challenges 5 and 3.  Their
slope is what the session has drawn. -/
theorem commitmentOpening_of_accepted_honest :
    let psi : Permutation := ⟨2, #v[1, 0], #v[1, 0], by decide, by decide⟩
    let nonces : ScalarMatrix := ⟨2, 1, #v[5, 6]⟩
    let opening : ProofReply := ⟨8, [3, 4], 3, 10, [3, 2], [28]⟩
    ∃ rows mixed V gens c k k' inverse,
      Shuffle.create Group.test rows ⟨Group.test.generator⟩ psi nonces = .ok ⟨mixed, nonces, psi⟩ ∧
      Verifier.create ⟨1, .direct, 0⟩ Group.test ⟨⟨Group.test.generator⟩, rows, mixed⟩ = .ok V ∧
      Generators.deriveAll Oracle.standard Group.test "mix" none 2 = .ok gens ∧
      V.checkEquations gens c k c.e 5 = .ok .accepted ∧
      V.checkEquations gens c k' c.e 3 = .ok .accepted ∧
      k.slope k' inverse = opening ∧ CommitmentOpening V gens c opening := by
  intro psi nonces opening
  obtain ⟨gens, hgens⟩ := Generators.exists_deriveAll_test
  obtain ⟨h0, x, rfl⟩ := Generators.exists_generatorsOf_of_deriveAll prime_testModulus hgens
  let engine : Engine := ⟨1, .direct, 0⟩
  let g := Member.generator Group.test
  let R : Fin 2 → Fin 1 → Cipher Group.test := fun i _ => (![1, 2] i : Scalar) • zeroBase g
  let pi : Equiv.Perm (Fin 2) := psi.toPerm rfl
  let S : Fin 2 → Fin 1 → Scalar := nonces.family rfl rfl
  let s : Session Group.test 1 1 :=
    { h0, generators := x, pk := g, rows := R, mixed := Shuffle.output g R pi S, pi, nonces := S
      r := ![1, 2], b := ![3, 4] }
  let e : Fin 2 → Scalar := ![2, 3]
  let masks : Opening 2 1 := (5, ![6, 7], 8, 9, ![10, 11], ![12])
  let inverse := Scalar.ofNat ((Scalar.order + 1) / 2)
  let I := s.relation e
  let c := I.commitment 10 (I.sides masks)
  let reply := fun v : Scalar => Opening.reply (v • s.opening e + masks)
  have hcreate : Shuffle.create Group.test (rowSet R) ⟨g.element⟩ psi nonces =
      .ok ⟨rowSet s.mixed, nonces, psi⟩ :=
    Shuffle.create_rowSet g Nat.one_pos R psi nonces rfl rfl rfl
  have hV : Verifier.create engine Group.test (statementOf g R s.mixed) = .ok (I.verifier engine) :=
    Verifier.create_eq_ok_iff.mpr ⟨1, 1, g, R, s.mixed, Nat.one_pos, rfl, rfl⟩
  have haccepted : ∀ v, (I.verifier engine).checkEquations I.derived c (reply v) c.e v =
      .ok .accepted :=
    s.checkEquations_of_honest e Nat.one_pos engine 10 rfl masks
  have hvalid : ∀ v, ShuffleProof.validate Group.test ⟨"mix", c, reply v⟩ 2 1 = .ok () := fun v =>
    ShuffleProof.validate_commitmentOf "mix" I.u 10 I.e I.bridges (I.sides masks) _
  have hinverse : ((5 : Scalar) - 3) * inverse = 1 := by decide +kernel
  have hslope : (reply 5).slope (reply 3) inverse = opening := by
    have hopening : inverse • ((5 : Scalar) • s.opening e + masks -
        ((3 : Scalar) • s.opening e + masks)) = s.opening e := by
      rw [add_sub_add_right_eq_sub, ← sub_smul, smul_smul, mul_comm, hinverse, one_smul]
    rw [Opening.slope_reply, hopening]
    rfl
  have hopens := commitmentOpening_of_accepted Oracle.standard hV hgens
    (checkElement_eq_ok_iff.mpr h0.isMember) (validate_elements x) (hvalid 5) (hvalid 3)
    (haccepted 5) (haccepted 3) hinverse
  rw [hslope] at hopens
  exact ⟨rowSet R, _, _, _, c, reply 5, reply 3, inverse, hcreate, hV, hgens, haccepted 5,
    haccepted 3, hslope, hopens⟩

end VerifiableMix
