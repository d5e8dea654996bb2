import VerifiableMix.Proofs.Ciphertext.Decryption
import VerifiableMix.Proofs.Shuffle

/-!
# A shuffle preserves the plaintexts

The output of a shuffle holds input row `i` at place `psi i`, re-encrypted, and
re-encryption keeps the plaintext.  So the decrypted rows of the output are
those of the input in another order.  Nothing is assumed about the entries of the
rows, nor that the modulus is prime.

## Main results

* `Shuffle.decrypt_create` — a shuffle succeeds and loses, repeats and alters no
  plaintext.
-/

namespace VerifiableMix

open VerifiableMix.Group

variable {G : Group} {n w : Nat}

/-- Rows are decrypted entry by entry. -/
theorem map_decrypt_rowsOf (R : Fin n → Fin w → Ciphertext) (sk : SecretKey) :
    (rowsOf R).map (fun row => Row.decrypt G row sk) =
      List.ofFn fun i => List.ofFn fun k => (R i k).decrypt G sk := by
  rw [rowsOf, List.map_ofFn]
  congr 1
  funext i
  exact List.map_ofFn

/-- A shuffle under the key of `sk` succeeds on every row set of one positive
width, and what it returns decrypts to the same plaintexts: that of input row `i`
and column `k` is found in row `psi i` and column `k`. -/
theorem Shuffle.decrypt_create (sk : SecretKey) {rows : List Row} (psi : Permutation)
    (nonces : ScalarMatrix) (hne : rows ≠ []) (hw : 0 < w)
    (hwidth : ∀ row ∈ rows, row.length = w) (hpsi : psi.size = rows.length)
    (hrows : nonces.rows = rows.length) (hcols : nonces.cols = w) :
    ∃ shuffle, Shuffle.create G rows (PublicKey.ofSecret G sk) psi nonces = .ok shuffle ∧
      shuffle.mixed.length = rows.length ∧ (∀ row ∈ shuffle.mixed, row.length = w) ∧
      (∀ (i : Fin psi.size) (k : Nat), k < w →
        ∃ x y, ciphertextAt rows i k = some x ∧
          ciphertextAt shuffle.mixed (psi.of i) k = some y ∧
          y.decrypt G sk = x.decrypt G sk) ∧
      (shuffle.mixed.map fun row => Row.decrypt G row sk).Perm
        (rows.map fun row => Row.decrypt G row sk) := by
  obtain ⟨n, R, _, rfl⟩ := exists_rowsOf_of_rowWidth (rowWidth_eq_ok_iff.mpr ⟨hne, hw, hwidth⟩)
  rw [length_rowsOf] at hpsi hrows
  let pi := psi.toPerm hpsi
  have hcreate := create_rowsOf (G := G) hw R (PublicKey.ofSecret G sk) psi nonces hpsi hrows hcols
  refine ⟨_, hcreate, by simp, length_of_mem_rowsOf _, fun i k hk => ?_, ?_⟩
  · let place := i.cast hpsi
    have hback : pi.symm (pi place) = place := pi.symm_apply_apply place
    refine ⟨_, _, ciphertextAt_rowsOf R place ⟨k, hk⟩,
      ciphertextAt_rowsOf _ (pi place) ⟨k, hk⟩, ?_⟩
    rw [Ciphertext.decrypt_reencrypt, hback]
  · rw [map_decrypt_rowsOf, map_decrypt_rowsOf]
    simp only [Ciphertext.decrypt_reencrypt]
    exact Equiv.Perm.ofFn_comp_perm pi.symm fun i => List.ofFn fun k => (R i k).decrypt G sk

/-- Two rows change places whose components are zero, unreduced or of a foreign
width. -/
theorem Shuffle.decrypt_create_swap :
    let rows : List Row := [[⟨⟨0, 3⟩, ⟨5, 0⟩⟩], [⟨⟨2, 1⟩, ⟨Group.test.p + 9, 65⟩⟩]]
    ∃ shuffle x y,
      Shuffle.create Group.test rows (PublicKey.ofSecret Group.test ⟨3⟩)
        ⟨2, #v[1, 0], #v[1, 0], by decide, by decide⟩ ⟨2, 1, Vector.replicate _ 5⟩ = .ok shuffle ∧
      ciphertextAt rows 1 0 = some x ∧ ciphertextAt shuffle.mixed 0 0 = some y ∧
      y.decrypt Group.test ⟨3⟩ = x.decrypt Group.test ⟨3⟩ := by
  intro rows
  have hwidth : ∀ row ∈ rows, row.length = 1 := by simp [rows]
  obtain ⟨shuffle, hcreate, _, _, hentry, _⟩ := Shuffle.decrypt_create (G := Group.test) ⟨3⟩
    ⟨2, #v[1, 0], #v[1, 0], by decide, by decide⟩ ⟨2, 1, Vector.replicate _ 5⟩
    (List.cons_ne_nil _ _) Nat.one_pos hwidth rfl rfl rfl
  obtain ⟨x, y, hx, hy, hplain⟩ := hentry 1 0 Nat.one_pos
  exact ⟨shuffle, x, y, hcreate, hx, hy, hplain⟩

end VerifiableMix
