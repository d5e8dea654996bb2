import VerifiableMix.Proofs.Commitment.Generators

/-!
# The derivation of generators

Every generator has a place, which is its index, and every attempt at it hashes an
input of its own.

The input of an attempt is put together from parts that come from outside.  Each part
whose length is not fixed stands behind its length, so a reader knows where it ends
before the next one begins: equal inputs have equal parts.  The generators of a mix are
those of the indices `0, …, n`, so another number of rows leaves them where they are.

## Main results

* `framed_append_inj` — a framed part is found again in front of any others.
* `Attempt.input_eq_iff` — equal inputs belong to the same attempt.
* `derive_congr` — nothing but the inputs of the attempts is hashed.
* `deriveAll_eq_ok` — the generators of a mix are those of the first indices.
* `deriveAll_exact` — and they are members other than the identity.
-/

namespace VerifiableMix.Generators

open Failure VerifiableMix.Group

/-! ## Framed parts -/

/-- A framed part is found again in front of any others. -/
theorem framed_append_inj {part part' rest rest' : Bytes} (hpart : part.length < UInt64.size)
    (hpart' : part'.length < UInt64.size) (h : framed part ++ rest = framed part' ++ rest') :
    part = part' ∧ rest = rest' := by
  unfold framed at h
  rw [List.append_assoc, List.append_assoc] at h
  obtain ⟨hwidth, hbytes⟩ :=
    List.append_inj h (by rw [Bytes.length_ofNatBE, Bytes.length_ofNatBE])
  have hlength : part.length = part'.length := Bytes.ofNatBE_inj hpart hpart' hwidth
  exact List.append_inj hbytes hlength

/-! ## Attempts -/

/-- What one attempt at a generator is made for. -/
structure Attempt where
  mixName : String
  seed : Option Bytes
  group : Group
  index : Nat
  attempt : Nat

namespace Attempt

/-- What is hashed in the attempt. -/
def input (a : Attempt) : Bytes :=
  hashInput a.mixName (a.seed.getD []) a.group.p a.index a.attempt

/-- Each part has a length, and each counter a value, that its field holds. -/
structure Fits (a : Attempt) : Prop where
  mixName : (Bytes.ofText a.mixName).length < UInt64.size
  seed : (a.seed.getD []).length < UInt64.size
  group : (Bytes.shortest a.group.p).length < UInt64.size
  index : a.index < UInt64.size
  attempt : a.attempt < UInt32.size

/-- Two attempts hash the same input only for the same generator of the same mix in
groups of the same modulus; a missing seed counts as the empty one. -/
theorem input_eq_iff {a b : Attempt} (ha : a.Fits) (hb : b.Fits) :
    a.input = b.input ↔
      a.mixName = b.mixName ∧ a.seed.getD [] = b.seed.getD [] ∧ a.group.p = b.group.p ∧
        a.index = b.index ∧ a.attempt = b.attempt := by
  constructor
  · intro h
    unfold input hashInput at h
    simp only [List.append_assoc] at h
    have h := List.append_cancel_left h
    obtain ⟨hname, h⟩ := framed_append_inj ha.mixName hb.mixName h
    obtain ⟨hseed, h⟩ := framed_append_inj ha.seed hb.seed h
    obtain ⟨hmodulus, h⟩ := framed_append_inj ha.group hb.group h
    obtain ⟨hindex, hattempt⟩ :=
      List.append_inj h (by rw [Bytes.length_ofNatBE, Bytes.length_ofNatBE])
    exact ⟨Bytes.ofText_injective hname, hseed, Bytes.shortest_injective hmodulus,
      Bytes.ofNatBE_inj ha.index hb.index hindex,
      Bytes.ofNatBE_inj ha.attempt hb.attempt hattempt⟩
  · rintro ⟨hname, hseed, hmodulus, hindex, hattempt⟩
    rw [input, hname, hseed, hmodulus, hindex, hattempt, input]

/-- The end of the name is not taken for the seed, but no seed is taken for the empty
one. -/
theorem input_eq_iff_seed :
    let named : Attempt := ⟨"mix1s", none, Group.test, 0, 0⟩
    let seeded : Attempt := ⟨"mix1", some (Bytes.ofText "s"), Group.test, 0, 0⟩
    named.input ≠ seeded.input ∧ named.input = { named with seed := some [] }.input := by
  intro named seeded
  have hmodulus : (Bytes.shortest Group.test.p).length < UInt64.size := by decide +kernel
  have hnamed : named.Fits := ⟨by decide, by decide, hmodulus, by decide, by decide⟩
  have hseeded : seeded.Fits := ⟨by decide, by decide, hmodulus, by decide, by decide⟩
  have hempty : { named with seed := some [] }.Fits :=
    ⟨by decide, by decide, hmodulus, by decide, by decide⟩
  constructor
  · intro h
    have hname : "mix1s" = "mix1" := ((input_eq_iff hnamed hseeded).mp h).1
    exact absurd hname (by decide)
  · exact (input_eq_iff hnamed hempty).mpr ⟨rfl, rfl, rfl, rfl, rfl⟩

end Attempt

variable {O O' : Oracle} {G : Group} {mixName : String} {seed : Option Bytes} {n : Nat}

theorem firstProper_congr {f g : Nat → Nat} {count attempt : Nat}
    (h : ∀ i < attempt + count, f i = g i) :
    firstProper f count attempt = firstProper g count attempt := by
  induction count generalizing attempt with
  | zero => rfl
  | succ count ih =>
      have hrest : firstProper f count (attempt + 1) = firstProper g count (attempt + 1) :=
        ih fun i hi => h i (by omega)
      unfold firstProper
      rw [h attempt (by omega), hrest]

/-- The derivation hashes the inputs of its attempts and nothing else. -/
theorem derive_congr {index : Nat}
    (h : ∀ attempt < attemptLimit,
      O.expand (Attempt.input ⟨mixName, seed, G, index, attempt⟩) =
        O'.expand (Attempt.input ⟨mixName, seed, G, index, attempt⟩)) :
    derive O G mixName seed index = derive O' G mixName seed index := by
  have hcandidate : ∀ attempt < 0 + attemptLimit,
      candidate O G mixName (seed.getD []) index attempt =
        candidate O' G mixName (seed.getD []) index attempt := by
    intro attempt hattempt
    have hinput := h attempt (by omega)
    unfold Attempt.input at hinput
    unfold candidate
    rw [hinput]
  unfold derive
  rw [firstProper_congr hcandidate]

/-! ## The generators of a mix -/

/-- The generators of a mix are those of the first indices. -/
theorem deriveAll_eq_ok {x : Nat → Element} (hx : ∀ i ≤ n, derive O G mixName seed i = .ok (x i)) :
    deriveAll O G mixName seed n =
      .ok { h0 := x 0, rows := (List.range n).map fun i => x (i + 1) } := by
  have hrows : (List.range n).mapM (fun i => derive O G mixName seed (i + 1)) =
      .ok ((List.range n).map fun i => x (i + 1)) := by
    apply mapM_eq_ok
    intro i hi
    exact hx (i + 1) (List.mem_range.mp hi)
  unfold deriveAll
  rw [hx 0 (Nat.zero_le n), ok_bind, hrows, ok_bind, pure_eq_ok]

/-- The derivation for a mix returns only if that of every generator does. -/
theorem exists_derive_of_deriveAll {gens : Generators}
    (h : deriveAll O G mixName seed n = .ok gens) :
    ∀ i ≤ n, ∃ x, derive O G mixName seed i = .ok x := by
  obtain ⟨h0, hbase, hrest⟩ := bind_eq_ok_iff.mp h
  obtain ⟨rows, hrows, _⟩ := bind_eq_ok_iff.mp hrest
  intro i hi
  cases i with
  | zero => exact ⟨h0, hbase⟩
  | succ i =>
      have hall := forall₂_of_mapM_eq_ok hrows
      have hindex : i < (List.range n).length := by rw [List.length_range]; omega
      have hrow := List.Forall₂.get hall hindex (hall.length_eq ▸ hindex)
      rw [List.get_eq_getElem, List.getElem_range] at hrow
      exact ⟨_, hrow⟩

/-- A generator that is derived is accepted as an element and is not the identity. -/
theorem proper_of_derive (hp : G.p.Prime) {index : Nat} {x : Element}
    (h : derive O G mixName seed index = .ok x) :
    G.checkElement x = .ok () ∧ x.sameValue G.one = false := by
  obtain ⟨_, _, _, hvalue⟩ := exists_of_derive h
  exact ⟨checkElement_eq_ok_iff.mpr (isMember_of_derive hp h), beq_false_of_ne hvalue⟩

/-- If the indices `0, …, n` have generators, these are the base and, in order, the rows
of a mix; those of a mix with fewer rows are the first of them.  Over a prime modulus
each is accepted as an element and is not the identity, whatever the hash is. -/
theorem deriveAll_exact (O : Oracle) (hp : G.p.Prime) (mixName : String) (seed : Option Bytes)
    (n : Nat) (hderive : ∀ i ≤ n, ∃ x, derive O G mixName seed i = .ok x) :
    ∃ gens, deriveAll O G mixName seed n = .ok gens ∧
      (List.range (n + 1)).mapM (derive O G mixName seed) = .ok (gens.h0 :: gens.rows) ∧
      derive O G mixName seed 0 = .ok gens.h0 ∧ gens.rows.length = n ∧
      (∀ i (hi : i < gens.rows.length), derive O G mixName seed (i + 1) = .ok gens.rows[i]) ∧
      (∀ m ≤ n, deriveAll O G mixName seed m = .ok { gens with rows := gens.rows.take m }) ∧
      ∀ x ∈ gens.h0 :: gens.rows, G.checkElement x = .ok () ∧ x.sameValue G.one = false := by
  choose! x hx using hderive
  have hall : deriveAll O G mixName seed n =
      .ok { h0 := x 0, rows := (List.range n).map fun i => x (i + 1) } := deriveAll_eq_ok hx
  refine ⟨_, hall, ?_, hx 0 (Nat.zero_le n), length_of_deriveAll hall, ?_, ?_, ?_⟩
  · have hrange : x 0 :: (List.range n).map (fun i => x (i + 1)) = (List.range (n + 1)).map x := by
      rw [List.range_succ_eq_map, List.map_cons, List.map_map]
      rfl
    show _ = Except.ok (x 0 :: (List.range n).map fun i => x (i + 1))
    rw [hrange]
    apply mapM_eq_ok
    intro i hi
    exact hx i (Nat.le_of_lt_succ (List.mem_range.mp hi))
  · intro i hi
    rw [length_of_deriveAll hall] at hi
    simp only [List.getElem_map, List.getElem_range]
    exact hx (i + 1) hi
  · intro m hm
    rw [deriveAll_eq_ok fun i hi => hx i (Nat.le_trans hi hm), ← List.map_take, List.take_range,
      Nat.min_eq_left hm]
  · obtain ⟨hbase, hrows⟩ := forall_of_deriveAll (fun _ _ => proper_of_derive hp) hall
    exact List.forall_mem_cons.mpr ⟨hbase, hrows⟩

/-- The first two rows of a mix over the 512-bit group. -/
theorem deriveAll_exact_test :
    ∃ gens, deriveAll Oracle.standard Group.test "mix" none 2 = .ok gens ∧
      deriveAll Oracle.standard Group.test "mix" none 1 =
        .ok { gens with rows := gens.rows.take 1 } ∧
      ∀ x ∈ gens.h0 :: gens.rows,
        Group.test.checkElement x = .ok () ∧ x.sameValue Group.test.one = false := by
  obtain ⟨_, hreturns⟩ := exists_deriveAll_test
  obtain ⟨gens, hgens, _, _, _, _, hfirst, hproper⟩ :=
    deriveAll_exact Oracle.standard prime_testModulus "mix" none 2 (exists_derive_of_deriveAll hreturns)
  exact ⟨gens, hgens, hfirst 1 (by decide), hproper⟩

end VerifiableMix.Generators
