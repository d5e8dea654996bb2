import VerifiableMix.Proofs.Completeness

/-!
# Replies cannot be altered

The reply enters the equations on the right-hand sides only: the challenge and the
masks are fixed by the first message.  So two replies that are accepted for one first
message have the same right-hand sides, and since `g` has order `q`, the exponents of
`g` agree as soon as the weights do.

The weights are the one place where two replies can differ, as a combination of the
generators can have two sets of weights.  A single changed weight is noticed all the
same.  In the equation of its bridge it is raised over the bridge before, which can be
the identity; but in the equation of the permutation it stands over a derived
generator, which is none.

## Main results

* `Relation.eq_of_sides_eq` — what two replies with the same right-hand sides share.
* `Relation.firstDifference_replace` — where a single changed scalar shows.
* `Verifier.accepted_reply_binding` — both, for the verdict on a proof.
-/

namespace VerifiableMix

open VerifiableMix.Group Failure ScalarVector

variable {G : Group} {n w : Nat}

/-! ## Places in a reply -/

/-- The place of a scalar in a reply. -/
inductive ReplyPlace where
  | kA
  | kB (row : Nat)
  | kC
  | kD
  | kE (row : Nat)
  | kF (column : Nat)
deriving DecidableEq, Repr

/-- The scalar at a place, or nothing outside the vectors. -/
def ProofReply.scalarAt? (k : ProofReply) : ReplyPlace → Option Scalar
  | .kA => some k.kA
  | .kB row => k.kB[row]?
  | .kC => some k.kC
  | .kD => some k.kD
  | .kE row => k.kE[row]?
  | .kF column => k.kF[column]?

/-- The reply with another scalar at a place. -/
def ProofReply.replace (k : ProofReply) (x : Scalar) : ReplyPlace → ProofReply
  | .kA => { k with kA := x }
  | .kB row => { k with kB := k.kB.set row x }
  | .kC => { k with kC := x }
  | .kD => { k with kD := x }
  | .kE row => { k with kE := k.kE.set row x }
  | .kF column => { k with kF := k.kF.set column x }

/-- The equation that notices another scalar at a place. -/
def ReplyPlace.rejection : ReplyPlace → Rejection
  | .kA => .permutationCommitment
  | .kB row => .bridge row
  | .kC => .commitmentSum
  | .kD => .bridgeProduct
  | .kE _ => .permutationCommitment
  | .kF _ => .reencryption

/-- An entry of a family, looked up by number. -/
theorem exists_of_getElem?_ofFn {α : Type} {f : Fin n → α} {i : Nat} {x : α}
    (h : (List.ofFn f)[i]? = some x) : ∃ j : Fin n, j.val = i ∧ f j = x := by
  obtain ⟨hi, hx⟩ := List.getElem?_eq_some_iff.mp h
  rw [List.length_ofFn] at hi
  exact ⟨⟨i, hi⟩, rfl, by simpa using hx⟩

/-- A replaced entry of a family. -/
theorem set_ofFn {α : Type} (f : Fin n → α) (i : Fin n) (x : α) :
    (List.ofFn f).set i x = List.ofFn (Function.update f i x) := by
  refine List.ext_getElem (by simp) fun j hj hj' => ?_
  rw [List.getElem_set, List.getElem_ofFn, List.getElem_ofFn, Function.update_apply]
  simp only [Fin.ext_iff, eq_comm]

/-! ## Right-hand sides -/

namespace Group.Member

theorem smul_zeroBase_injective (pk : Member G) :
    Function.Injective fun k : Scalar => k • zeroBase pk := by
  intro k k' h
  exact smul_generator_injective (congrArg Prod.fst h)

/-- One other coefficient of a member that is not the identity changes the combination. -/
theorem sum_update_smul_ne {x : Fin n → Member G} {i : Fin n} (hx : x i ≠ 0)
    {k : Fin n → Scalar} {c : Scalar} (hc : c ≠ k i) :
    ∑ j, k j • x j ≠ ∑ j, Function.update k i c j • x j := by
  intro h
  have hsum : ∑ j, (Function.update k i c j - k j) • x j = (c - k i) • x i := by
    rw [Finset.sum_eq_single i]
    · rw [Function.update_self]
    · intro j _ hj
      rw [Function.update_of_ne hj, sub_self, zero_smul]
    · intro hi
      exact absurd (Finset.mem_univ i) hi
  have hzero : (c - k i) • x i = 0 := by
    simp only [← hsum, sub_smul, Finset.sum_sub_distrib, h, sub_self]
  rcases (Scalar.smul_eq_zero_iff Scalar.prime_order).mp hzero with hfactor | hmember
  · exact hc (sub_eq_zero.mp hfactor)
  · exact hx hmember

end Group.Member

namespace Relation

variable (I : Relation G n w)

/-- Two replies with the same right-hand sides agree in the exponents of `g` that stand
alone, and in everything when their weights agree. -/
theorem eq_of_sides_eq {k k' : Opening n w} (h : I.sides k = I.sides k') :
    k.2.2.1 = k'.2.2.1 ∧ k.2.2.2.1 = k'.2.2.2.1 ∧
      (k.2.2.2.2.1 = k'.2.2.2.2.1 → k = k') := by
  obtain ⟨a, b, c, d, weights, f⟩ := k
  obtain ⟨a', b', c', d', weights', f'⟩ := k'
  have hC : c = c' := Member.smul_generator_injective (congrArg (fun x => x.2.2.1) h)
  have hD : d = d' := Member.smul_generator_injective (congrArg (fun x => x.2.2.2.1) h)
  refine ⟨hC, hD, fun hE => ?_⟩
  obtain rfl : weights = weights' := hE
  have hA : a = a' := Member.smul_generator_injective (add_right_cancel (congrArg Prod.fst h))
  have hB : b = b' := by
    funext i
    have hi := congrFun (congrArg (fun x => x.2.1) h) i
    exact Member.smul_generator_injective (add_right_cancel hi)
  have hF : f = f' := by
    have hrows := add_right_cancel (congrArg (fun x => x.2.2.2.2) h)
    funext column
    have hcolumn := Member.smul_zeroBase_injective I.pk (congrFun hrows column)
    exact neg_injective hcolumn
  rw [hA, hB, hC, hD, hF]

/-- A reply with another scalar at one place has other right-hand sides, and the place
tells which of them is the first. -/
theorem firstDifference_replace (hgenerators : ∀ i, I.generators i ≠ 0) {k : Opening n w}
    {place : ReplyPlace} {old x : Scalar} (hold : (Opening.reply k).scalarAt? place = some old)
    (hne : x ≠ old) :
    ∃ k' : Opening n w, (Opening.reply k).replace x place = Opening.reply k' ∧
      FirstDifference (I.sides k) (I.sides k') place.rejection := by
  obtain ⟨a, b, c, d, weights, f⟩ := k
  cases place with
  | kA =>
      obtain rfl : a = old := Option.some.inj hold
      refine ⟨(x, b, c, d, weights, f), rfl, .permutationCommitment fun h => hne ?_⟩
      exact Member.smul_generator_injective (add_right_cancel h).symm
  | kB row =>
      obtain ⟨i, rfl, rfl⟩ := exists_of_getElem?_ofFn hold
      refine ⟨(a, Function.update b i x, c, d, weights, f), ?_, .bridge i rfl (fun j hj => ?_)
        fun h => hne ?_⟩
      · rw [Opening.reply, ProofReply.replace, set_ofFn]
        rfl
      · have hj' : Function.update b i x j = b j := Function.update_of_ne hj.ne x b
        show b j • Member.generator G + _ = Function.update b i x j • Member.generator G + _
        rw [hj']
      · have hi : b i = Function.update b i x i :=
          Member.smul_generator_injective (add_right_cancel h)
        rw [Function.update_self] at hi
        exact hi.symm
  | kC =>
      obtain rfl : c = old := Option.some.inj hold
      refine ⟨(a, b, x, d, weights, f), rfl, .commitmentSum rfl rfl fun h => hne ?_⟩
      exact (Member.smul_generator_injective h).symm
  | kD =>
      obtain rfl : d = old := Option.some.inj hold
      refine ⟨(a, b, c, x, weights, f), rfl, .bridgeProduct rfl rfl rfl fun h => hne ?_⟩
      exact (Member.smul_generator_injective h).symm
  | kE row =>
      obtain ⟨i, rfl, rfl⟩ := exists_of_getElem?_ofFn hold
      refine ⟨(a, b, c, d, Function.update weights i x, f), ?_, .permutationCommitment fun h => ?_⟩
      · rw [Opening.reply, ProofReply.replace, set_ofFn]
        rfl
      · exact Member.sum_update_smul_ne (hgenerators i) hne (add_left_cancel h)
  | kF column =>
      obtain ⟨i, rfl, rfl⟩ := exists_of_getElem?_ofFn hold
      refine ⟨(a, b, c, d, weights, Function.update f i x), ?_, .reencryption rfl rfl rfl rfl
        fun h => hne ?_⟩
      · rw [Opening.reply, ProofReply.replace, set_ofFn]
        rfl
      · have hcolumn := Member.smul_zeroBase_injective I.pk (congrFun (add_right_cancel h) i)
        have hi : f i = Function.update f i x i := neg_injective hcolumn
        rw [Function.update_self] at hi
        exact hi.symm

end Relation

/-! ## Replies to one first message -/

namespace Verifier

/-- The first message of an accepted proof fixes the left-hand sides, and every reply is
judged by comparing its right-hand sides to them. -/
theorem exists_leftSides_of_accepted {O : Oracle} (hp : G.p.Prime) {engine : Engine}
    {st : Statement} {V : Verifier} (hV : create engine G st = .ok V) {mixName : String}
    {c : ProofCommitment} {k : ProofReply} (h : V.verify O ⟨mixName, c, k⟩ = .ok .accepted) :
    ∃ (n w : Nat) (I : Relation G (n + 1) w) (left : Sides G (n + 1) w),
      (∀ i, I.generators i ≠ 0) ∧
      (∀ k', V.verify O ⟨mixName, c, k'⟩ = .ok .accepted →
        ∃ reply, k' = Opening.reply reply ∧ left = I.sides reply) ∧
      ∀ reply reason, FirstDifference left (I.sides reply) reason →
        V.verify O ⟨mixName, c, Opening.reply reply⟩ = .ok (.rejected reason) := by
  obtain ⟨n, w, I, masks, _, t, hw, rfl, hc, _, hgens, he⟩ := exists_relation_of_accepted hp hV h
  let v := replyChallenge O G t (I.commitment c.d masks)
  have hverify : ∀ reply : Opening (n + 1) w,
      (I.verifier engine).verify O ⟨mixName, c, Opening.reply reply⟩ =
        (I.verifier engine).checkEquations I.derived (I.commitment c.d masks)
          (Opening.reply reply) (List.ofFn I.e) v := by
    intro reply
    rw [← verify_eq O I engine mixName c.d masks reply t hgens he, ← hc]
  refine ⟨n, w, I, I.leftSides masks v, Generators.ne_zero_of_deriveAll hgens, ?_, ?_⟩
  · intro k' h'
    have hcount : (I.verifier engine).rowCount = n + 1 := length_rowSet I.rows
    have hvalid : ShuffleProof.validate G ⟨mixName, c, k'⟩ (n + 1) w = .ok () :=
      hcount ▸ validate_of_verify h'
    obtain ⟨_, _, _, _, reply, _, hreply⟩ := ShuffleProof.exists_of_validate hvalid
    obtain rfl : k' = Opening.reply reply := hreply
    rw [hverify] at h'
    exact ⟨reply, rfl, (checkEquations_eq_accepted_iff hw I engine c.d masks reply v).mp h'⟩
  · intro reply reason hdifference
    rw [hverify]
    exact checkEquations_of_firstDifference hw I engine c.d masks reply v hdifference

/-- Replies that are accepted for one first message agree in the exponents that stand
alone, and in everything when their weights agree.  Another scalar at any one place is
rejected. -/
theorem accepted_reply_binding (O : Oracle) (hp : G.p.Prime) {engine : Engine} {st : Statement}
    {V : Verifier} (hV : create engine G st = .ok V) (mixName : String) (c : ProofCommitment) :
    (∀ k k' : ProofReply, V.verify O ⟨mixName, c, k⟩ = .ok .accepted →
      V.verify O ⟨mixName, c, k'⟩ = .ok .accepted →
      k.kC = k'.kC ∧ k.kD = k'.kD ∧
        (k.kE = k'.kE → k.kA = k'.kA ∧ k.kB = k'.kB ∧ k.kF = k'.kF)) ∧
    ∀ (k : ProofReply) (place : ReplyPlace) (old x : Scalar),
      V.verify O ⟨mixName, c, k⟩ = .ok .accepted → k.scalarAt? place = some old → x ≠ old →
      V.verify O ⟨mixName, c, k.replace x place⟩ = .ok (.rejected place.rejection) := by
  constructor
  · intro k k' h h'
    obtain ⟨n, w, I, left, _, haccepted, _⟩ := exists_leftSides_of_accepted hp hV h
    obtain ⟨reply, rfl, hsides⟩ := haccepted k h
    obtain ⟨reply', rfl, hsides'⟩ := haccepted k' h'
    obtain ⟨hC, hD, hrest⟩ := I.eq_of_sides_eq (hsides.symm.trans hsides')
    refine ⟨hC, hD, fun hE => ?_⟩
    obtain rfl := hrest (List.ofFn_injective hE)
    exact ⟨rfl, rfl, rfl⟩
  · intro k place old x h hold hne
    obtain ⟨n, w, I, left, hgenerators, haccepted, hrejected⟩ :=
      exists_leftSides_of_accepted hp hV h
    obtain ⟨reply, rfl, rfl⟩ := haccepted k h
    obtain ⟨reply', hreply, hdifference⟩ := I.firstDifference_replace hgenerators hold hne
    rw [hreply]
    exact hrejected reply' _ hdifference

/-- In a proof for two rows the first weight is raised by one. -/
theorem accepted_reply_binding_weight :
    ∃ mixed V proof weight,
      create ⟨4, .windowed, 0⟩ Group.test ⟨⟨Group.test.generator⟩, testRows, mixed⟩ = .ok V ∧
      V.verify Oracle.standard proof = .ok .accepted ∧
      proof.reply.scalarAt? (.kE 0) = some weight ∧
      V.verify Oracle.standard
          ⟨proof.mixName, proof.commitment, proof.reply.replace (weight + 1) (.kE 0)⟩ =
        .ok (.rejected .permutationCommitment) := by
  obtain ⟨gens, hgens⟩ := Generators.exists_deriveAll_test
  let g := Member.generator Group.test
  let psi := Permutation.identity 2
  let nonces : ScalarMatrix := ⟨2, 1, Vector.replicate _ 5⟩
  have hpsi : psi.size = 2 := rfl
  have hrows : nonces.rows = 2 := rfl
  have hcoins : Coins.Fits ⟨[1, 2], [3, 4], 5, [6, 7], 8, 9, [10, 11], [12]⟩ 2 1 :=
    ⟨rfl, rfl, rfl, rfl, rfl⟩
  obtain ⟨shuffle, _, proof, _, _, _, hverified⟩ := exists_verified_proof Oracle.standard
    prime_testModulus Nat.one_pos g (fun _ _ => zeroBase g) hgens ⟨1, .direct, 0⟩ ⟨4, .windowed, 0⟩
    hpsi hrows rfl hcoins
  obtain ⟨V, hV, haccepted⟩ := bind_eq_ok_iff.mp hverified
  have hvalid := validate_of_verify haccepted
  have hcount : V.rowCount = 2 := by
    obtain ⟨_, _, _, _, _, _, hst, rfl⟩ := create_eq_ok_iff.mp hV
    rfl
  have hlength : proof.reply.kE.length = 2 := hcount ▸ (ShuffleProof.hasShape_of_validate hvalid).kE
  have hweight : proof.reply.scalarAt? (.kE 0) = some (proof.reply.kE[0]) :=
    List.getElem?_eq_getElem (by omega)
  have hne : proof.reply.kE[0] + 1 ≠ proof.reply.kE[0] := by
    intro h
    have hone : (1 : Scalar) = 0 := add_eq_left.mp h
    cases hone
  have hbinding := accepted_reply_binding Oracle.standard prime_testModulus hV proof.mixName
    proof.commitment
  exact ⟨shuffle.mixed, V, proof, _, hV, haccepted, hweight,
    hbinding.2 proof.reply (.kE 0) _ _ haccepted hweight hne⟩

end Verifier

end VerifiableMix
