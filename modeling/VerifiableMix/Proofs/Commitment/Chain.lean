import Mathlib.Tactic.Module
import VerifiableMix.Commitment.Chain
import VerifiableMix.Group.Builtin
import VerifiableMix.Proofs.Group.Member

/-!
# The closed form of a commitment chain

A chain from the base `h` over the weights `w` with the nonces `b` is the family
of links `Bᵢ = bᵢ • g + wᵢ • Bᵢ₋₁` with `B₋₁ = h`.  In closed form link `i` is
`xᵢ • g + yᵢ • h` with the running exponents `x` and `y`, which are the same
recurrence once for the coefficients of `g` and once for those of `h`.

## Main results

* `isChain_closedForm` — the closed form satisfies the equation of every link.
* `linksFrom_eq`, `links_eq` — going link by link gives the only chain there is.
* `last_eq` — the last link is `x • g + (∏ wᵢ) • h`.
* `create_eq_links` — what is written out and what goes link by link agree on
  vectors of scalars.
-/

namespace VerifiableMix.CommitmentChain

open VerifiableMix.Group Failure ScalarVector

variable {G : Group} {n : Nat}

/-- A link, as the operations of the group compute it. -/
theorem link_element (x : Member G) (r u : Scalar) :
    G.mul (G.gpow r) (G.pow x.element u) = (r • Member.generator G + u • x).element := by
  rw [Member.gpow_eq, Member.pow_element, Member.mul_element]

/-- Every link is made of the one before it. -/
def IsChain (h : Member G) (w b : Fin n → Scalar) (B : Fin n → Member G) : Prop :=
  ∀ i, B i = b i • Member.generator G + w i • previous h B i

/-- The links with given running exponents. -/
def closedForm (h : Member G) (x y : Fin n → Scalar) (i : Fin n) : Member G :=
  x i • Member.generator G + y i • h

/-- The closed form of the link before. -/
theorem previous_closedForm (h : Member G) (x y : Fin n → Scalar) (i : Fin n) :
    previous h (closedForm h x y) i =
      previous 0 x i • Member.generator G + previous 1 y i • h := by
  cases n with
  | zero => exact i.elim0
  | succ n =>
      cases i using Fin.cases with
      | zero => simp
      | succ i => simp [closedForm]

/-- The closed form satisfies the equation of every link. -/
theorem isChain_closedForm (h : Member G) (w b : Fin n → Scalar) :
    IsChain h w b (closedForm h (accumulate 0 b w) (accumulate 1 0 w)) := by
  intro i
  rw [previous_closedForm, closedForm, accumulate_step 0 b w i, accumulate_step 1 0 w i,
    Pi.zero_apply, add_zero]
  module

/-- Going link by link gives the only chain there is. -/
theorem linksFrom_eq {h : Member G} {w b : Fin n → Scalar} {B : Fin n → Member G}
    (hB : IsChain h w b B) : linksFrom G h.element (List.ofFn w) (List.ofFn b) = elements B := by
  induction n generalizing h with
  | zero => simp [linksFrom, elements]
  | succ n ih =>
      have hfirst : G.mul (G.gpow (b 0)) (G.pow h.element (w 0)) = (B 0).element := by
        rw [link_element, hB 0, previous_zero]
      have hrest : IsChain (B 0) (fun i => w i.succ) (fun i => b i.succ) fun i => B i.succ := by
        intro i
        rw [previous_tail, ← previous_succ h B i]
        exact hB i.succ
      rw [List.ofFn_succ (f := w), List.ofFn_succ (f := b), linksFrom, hfirst, ih hrest,
        elements, elements, List.ofFn_succ]

theorem links_eq {h : Member G} {w b : Fin n → Scalar} {B : Fin n → Member G}
    (hB : IsChain h w b B) :
    links G h.element (List.ofFn w) (List.ofFn b) = .ok (elements B) := by
  rw [links, List.length_ofFn, List.length_ofFn, checkLength_self, ok_bind, linksFrom_eq hB]
  rfl

/-- There is only one chain. -/
theorem isChain_unique {h : Member G} {w b : Fin n → Scalar} {B B' : Fin n → Member G}
    (hB : IsChain h w b B) (hB' : IsChain h w b B') : B = B' := by
  have hlinks : elements B = elements B' := by rw [← linksFrom_eq hB, linksFrom_eq hB']
  funext i
  exact Member.ext (congrFun (List.ofFn_injective hlinks) i)

/-! ## Running exponents -/

theorem runningExponents_ofFn (w b : Fin n → Scalar) :
    runningExponents (List.ofFn w) (List.ofFn b) =
      .ok (List.ofFn (accumulate 0 b w), List.ofFn (accumulate 1 0 w)) := by
  rw [runningExponents, List.length_ofFn, List.length_ofFn, checkLength_self, ok_bind,
    recurrence_ofFn, runningProducts_ofFn]
  rfl

/-- The chain in closed form. -/
theorem create_ofFn (h : Member G) (w b : Fin n → Scalar) :
    create G h.element (List.ofFn w) (List.ofFn b) =
      .ok { commitments := elements (closedForm h (accumulate 0 b w) (accumulate 1 0 w))
            nonces := List.ofFn b } := by
  rw [create, runningExponents_ofFn, ok_bind]
  simp only [zipWith_ofFn, link_element]
  rfl

/-- The last link is `x • g + (∏ wᵢ) • h`. -/
theorem last_eq (h : Member G) (x w : Fin (n + 1) → Scalar) :
    closedForm h x (accumulate 1 0 w) (Fin.last n) =
      x (Fin.last n) • Member.generator G + (∏ i, w i) • h := by
  rw [closedForm, accumulate_last, one_mul]

/-! ## Chains over vectors -/

/-- What stands before a link: the base, or the link before. -/
theorem getElem?_cons_elements (h : Member G) (B : Fin n → Member G) (i : Fin n) :
    (h.element :: elements B)[i.val]? = some (previous h B i).element := by
  rw [elements, getElem?_cons_ofFn, ← map_previous Member.element]

/-- A chain exists only over vectors of one length. -/
theorem length_eq_of_create {h : Element} {u nonces : ScalarVector} {chain : CommitmentChain}
    (hchain : create G h u nonces = .ok chain) : u.length = nonces.length := by
  obtain ⟨_, hexponents, _⟩ := bind_eq_ok_iff.mp hchain
  obtain ⟨_, hcheck, _⟩ := bind_eq_ok_iff.mp hexponents
  exact checkLength_eq_ok_iff.mp hcheck

/-- From a checked base the chain that is written out is the chain that goes link by
link: at every place the running exponents of generator and base give what the nonce
and the entry give from the link before.  The last link raises the base to the product
of all entries.  Vectors of different lengths have no chain in either form. -/
theorem create_eq_links {h : Element} (hh : G.checkElement h = .ok ()) (u nonces : ScalarVector) :
    (u.length = nonces.length →
      ∃ (chain : CommitmentChain) (rs us : ScalarVector),
        create G h u nonces = .ok chain ∧
        links G h u nonces = .ok chain.commitments ∧
        runningExponents u nonces = .ok (rs, us) ∧
        chain.commitments.length = u.length ∧
        (∀ i < u.length, ∃ before R U r x,
          (h :: chain.commitments)[i]? = some before ∧
          rs[i]? = some R ∧ us[i]? = some U ∧ nonces[i]? = some r ∧ u[i]? = some x ∧
          chain.commitments[i]? = some (G.mul (G.gpow R) (G.pow h U)) ∧
          chain.commitments[i]? = some (G.mul (G.gpow r) (G.pow before x))) ∧
        (u ≠ [] → ∃ R, rs.getLast? = some R ∧
          chain.last? = some (G.mul (G.gpow R) (G.pow h u.product)))) ∧
    (u.length ≠ nonces.length →
      create G h u nonces = .error (.lengthMismatch .chainNonces u.length nonces.length) ∧
      links G h u nonces = .error (.lengthMismatch .chainLinks u.length nonces.length)) := by
  constructor
  · intro hlength
    obtain ⟨h, rfl⟩ := exists_member hh
    obtain ⟨n, hn⟩ : ∃ n, nonces.length = n := ⟨_, rfl⟩
    obtain ⟨w, rfl⟩ := exists_eq_ofFn (hlength.trans hn)
    obtain ⟨b, rfl⟩ := exists_eq_ofFn hn
    let x := accumulate 0 b w
    let y := accumulate 1 0 w
    let B := closedForm h x y
    have hB : IsChain h w b B := isChain_closedForm h w b
    refine ⟨_, _, _, create_ofFn h w b, links_eq hB, runningExponents_ofFn w b, by simp, ?_, ?_⟩
    · intro i hi
      let place : Fin n := ⟨i, by simpa using hi⟩
      have hlink : (elements B)[i]? = some (B place).element := getElem?_elements B place
      refine ⟨(previous h B place).element, x place, y place, b place, w place,
        getElem?_cons_elements h B place, getElem?_ofFn x place, getElem?_ofFn y place,
        getElem?_ofFn b place, getElem?_ofFn w place, ?_, ?_⟩
      · rw [link_element]
        exact hlink
      · rw [link_element, ← hB place]
        exact hlink
    · intro hne
      cases n with
      | zero => exact (hne List.ofFn_zero).elim
      | succ n =>
          refine ⟨x (Fin.last n), getLast?_ofFn x, ?_⟩
          rw [product_ofFn, link_element, ← last_eq h x w]
          exact getLast?_ofFn fun i => (B i).element
  · intro hlength
    rw [create, runningExponents, links, checkLength_of_ne hlength, checkLength_of_ne hlength]
    exact ⟨rfl, rfl⟩

/-- A chain with a zero among its entries and its nonces. -/
theorem create_eq_links_three :
    ∃ chain, create Group.test Group.test.generator [2, 0, 3] [5, 7, 0] = .ok chain ∧
      links Group.test Group.test.generator [2, 0, 3] [5, 7, 0] = .ok chain.commitments ∧
      create Group.test Group.test.generator [2] [5, 7] =
        .error (.lengthMismatch .chainNonces 1 2) := by
  have hbase : Group.test.checkElement Group.test.generator = .ok () :=
    checkElement_eq_ok_iff.mpr (Member.generator Group.test).isMember
  obtain ⟨chain, _, _, hcreate, hlinks, _⟩ :=
    (create_eq_links hbase [2, 0, 3] [5, 7, 0]).1 rfl
  have hshort := (create_eq_links hbase [2] [5, 7]).2 (by decide)
  exact ⟨chain, hcreate, hlinks, hshort.1⟩

end VerifiableMix.CommitmentChain
