import VerifiableMix.Proofs.Commitment.Chain
import VerifiableMix.Proofs.Scalar.Prime

/-!
# A chain binds its entries

Let one entry of a chain be changed, while base and nonces stay.  The links below
the change stay too.  The link at the change moves by a multiple of the link before
it, and every later link moves by the move of the link before it times its own entry.
Since the order is prime, a multiple vanishes only with its factors.  So once a link
has moved all later links have, unless a later entry is zero; and the first one moves
unless it is made from one, whose multiples are all the same.

## Main results

* `IsChain.eq_of_lt` — links depend on the entries up to their own.
* `IsChain.sub_eq` — by how much a link moves.
* `IsChain.ne_of_le` — from the change on all links differ.
* `rederives_eq_false_of_change` — the same for vectors of scalars.
-/

namespace VerifiableMix.CommitmentChain

open VerifiableMix.Group Failure ScalarVector

variable {G : Group} {n : Nat} {h : Member G} {w w' b : Fin n → Scalar} {B B' : Fin n → Member G}

/-! ## Two chains from one base -/

/-- Links depend on the entries up to their own. -/
theorem IsChain.eq_of_lt (hB : IsChain h w b B) (hB' : IsChain h w' b B') {i : Fin n}
    (hsame : ∀ j < i, w' j = w j) : ∀ j < i, B' j = B j := by
  intro j
  induction j using WellFoundedLT.induction with
  | ind j ih =>
      intro hj
      have hbefore : previous h B' j = previous h B j := by
        refine previous_congr fun k hk => ?_
        have hkj : k < j := Fin.lt_def.mpr (by omega)
        exact ih k hkj (hkj.trans hj)
      rw [hB' j, hB j, hsame j hj, hbefore]

/-- A link moves with its entry and with the link before. -/
theorem IsChain.sub_eq (hB : IsChain h w b B) (hB' : IsChain h w' b B') (j : Fin n) :
    B' j - B j =
      (w' j - w j) • previous h B j + w' j • (previous h B' j - previous h B j) := by
  rw [hB j, hB' j]
  module

/-- From the change on all links differ. -/
theorem IsChain.ne_of_le (hB : IsChain h w b B) (hB' : IsChain h w' b B') {i : Fin n}
    (hsame : ∀ j, j ≠ i → w' j = w j) (hchange : w' i ≠ w i) (hnonzero : ∀ j, i < j → w j ≠ 0)
    (hbefore : previous h B i ≠ 0) : ∀ j, i ≤ j → B' j ≠ B j := by
  intro j
  induction j using WellFoundedLT.induction with
  | ind j ih =>
      intro hij hequal
      have hmove := hB.sub_eq hB' j
      rw [sub_eq_zero.mpr hequal] at hmove
      rcases hij.eq_or_lt with rfl | hlt
      · -- the links before the change are the same
        have hprevious : previous h B' i = previous h B i := by
          refine previous_congr fun k hk => ?_
          exact hB.eq_of_lt hB' (fun j hj => hsame j hj.ne) k (Fin.lt_def.mpr (by omega))
        rw [hprevious, sub_self, smul_zero, add_zero, eq_comm,
          Scalar.smul_eq_zero_iff Scalar.prime_order] at hmove
        rcases hmove with hentry | hone
        · exact hchange (sub_eq_zero.mp hentry)
        · exact hbefore hone
      · -- the link before is at the change or behind it, so it has moved
        obtain ⟨k, hk⟩ : ∃ k : Fin n, k.val + 1 = j.val :=
          ⟨⟨j.val - 1, by omega⟩, by have := Fin.lt_def.mp hlt; simp only; omega⟩
        rw [hsame j hlt.ne', sub_self, zero_smul, zero_add, previous_of_succ h B' hk,
          previous_of_succ h B hk, eq_comm, Scalar.smul_eq_zero_iff Scalar.prime_order] at hmove
        rcases hmove with hentry | hlink
        · exact hnonzero j hlt hentry
        · have hkj : k < j := Fin.lt_def.mpr (by omega)
          have hik : i ≤ k := Fin.le_def.mpr (by have := Fin.lt_def.mp hlt; omega)
          exact ih k hkj hik (sub_eq_zero.mp hlink)

/-! ## Chains over vectors -/

/-- The links of a chain are derived again just from vectors that give the same links. -/
theorem rederives_elements (hB' : IsChain h w' b B') (B : Fin n → Member G) :
    rederives G ⟨elements B, List.ofFn b⟩ h.element (List.ofFn w') = true ↔ B' = B := by
  have hlinks := isChain_unique (isChain_closedForm h w' b) hB'
  rw [rederives, create_ofFn, hlinks]
  exact sameValues_elements B' B

/-- Change one entry of a vector and keep base and nonces.  If the link before the
change is not one and no later entry is zero, the chain is the same below the change,
differs in every link from the change on, and is not derived again. -/
theorem rederives_eq_false_of_change {h before : Element} {u u' nonces : ScalarVector}
    {chain : CommitmentChain} {i : Nat} (hh : G.checkElement h = .ok ())
    (hlength : u'.length = u.length) (hsame : ∀ j, j ≠ i → u'[j]? = u[j]?)
    (hchange : u'[i]? ≠ u[i]?) (hnonzero : ∀ j, i < j → u[j]? ≠ some 0)
    (hchain : create G h u nonces = .ok chain)
    (hbefore : (h :: chain.commitments)[i]? = some before)
    (hone : before.sameValue G.one = false) :
    ∃ chain', create G h u' nonces = .ok chain' ∧
      (∀ j < i, chain'.commitments[j]? = chain.commitments[j]?) ∧
      (∀ j, i ≤ j → j < u.length → ∃ c c', chain.commitments[j]? = some c ∧
        chain'.commitments[j]? = some c' ∧ c'.sameValue c = false) ∧
      rederives G chain h u' = false := by
  obtain ⟨h, rfl⟩ := exists_member hh
  obtain ⟨n, hn⟩ : ∃ n, nonces.length = n := ⟨_, rfl⟩
  have hu := (length_eq_of_create hchain).trans hn
  obtain ⟨w, rfl⟩ := exists_eq_ofFn hu
  obtain ⟨w', rfl⟩ := exists_eq_ofFn (hlength.trans hu)
  obtain ⟨b, rfl⟩ := exists_eq_ofFn hn
  let B := closedForm h (accumulate 0 b w) (accumulate 1 0 w)
  let B' := closedForm h (accumulate 0 b w') (accumulate 1 0 w')
  have hB : IsChain h w b B := isChain_closedForm h w b
  have hB' : IsChain h w' b B' := isChain_closedForm h w' b
  obtain rfl : chain = ⟨elements B, List.ofFn b⟩ :=
    Except.ok.inj (hchain.symm.trans (create_ofFn h w b))
  -- outside the vectors there is no entry to change
  have hi : i < n := by
    by_contra hout
    exact hchange (by simp [hout])
  let place : Fin n := ⟨i, hi⟩
  have hsame' : ∀ j, j ≠ place → w' j = w j := fun j hj => by
    simpa using hsame j (Fin.val_ne_of_ne hj)
  have hchange' : w' place ≠ w place := by simpa [hi] using hchange
  have hnonzero' : ∀ j, place < j → w j ≠ 0 := fun j hj => by simpa using hnonzero j hj
  have hbefore' : previous h B place ≠ 0 := by
    intro hzero
    obtain rfl := Option.some.inj ((getElem?_cons_elements h B place).symm.trans hbefore)
    rw [hzero, Member.element_zero, Element.sameValue, beq_self_eq_true] at hone
    cases hone
  have hdiffer := hB.ne_of_le hB' hsame' hchange' hnonzero' hbefore'
  refine ⟨_, create_ofFn h w' b, fun j hj => ?_, fun j hj hju => ?_, ?_⟩
  · let below : Fin n := ⟨j, hj.trans hi⟩
    have hbelow := hB.eq_of_lt hB' (i := place) (fun k hk => hsame' k hk.ne) below hj
    exact (getElem?_elements B' below).trans (hbelow ▸ (getElem?_elements B below).symm)
  · let later : Fin n := ⟨j, by simpa using hju⟩
    refine ⟨_, _, getElem?_elements B later, getElem?_elements B' later, ?_⟩
    rw [← Bool.not_eq_true, Member.sameValue_iff]
    exact hdiffer later hj
  · rw [← Bool.not_eq_true, rederives_elements hB']
    exact fun hequal => hdiffer place le_rfl (congrFun hequal place)

/-- The middle one of three entries is changed; the first entry is zero and stays so. -/
theorem rederives_eq_false_of_change_middle :
    let G := Group.test
    ∃ chain chain', create G G.generator [0, 2, 3] [5, 7, 0] = .ok chain ∧
      create G G.generator [0, 4, 3] [5, 7, 0] = .ok chain' ∧
      chain'.commitments[0]? = chain.commitments[0]? ∧
      (∃ c c', chain.commitments[2]? = some c ∧ chain'.commitments[2]? = some c' ∧
        c'.sameValue c = false) ∧
      rederives G chain G.generator [0, 4, 3] = false := by
  intro G
  have hbase : G.checkElement G.generator = .ok () :=
    checkElement_eq_ok_iff.mpr (Member.generator G).isMember
  have hlength : ([0, 4, 3] : ScalarVector).length = ([0, 2, 3] : ScalarVector).length := rfl
  have hsame : ∀ j, j ≠ 1 → ([0, 4, 3] : ScalarVector)[j]? = ([0, 2, 3] : ScalarVector)[j]? := by
    intro j hj
    match j with
    | 0 | _ + 2 => rfl
    | 1 => exact (hj rfl).elim
  have hnonzero : ∀ j, 1 < j → ([0, 2, 3] : ScalarVector)[j]? ≠ some 0 := by
    intro j hj
    match j with
    | 0 | 1 => omega
    | 2 => decide
    | _ + 3 => simp
  have hchain := create_ofFn (Member.generator G) ![0, 2, 3] ![5, 7, 0]
  obtain ⟨chain', hchain', hbelow, hfrom, hrederives⟩ :=
    rederives_eq_false_of_change hbase hlength hsame (by decide) hnonzero hchain rfl
      (by decide +kernel)
  exact ⟨_, chain', hchain, hchain', hbelow 0 Nat.one_pos, hfrom 2 (by decide) (by decide),
    hrederives⟩

end VerifiableMix.CommitmentChain
