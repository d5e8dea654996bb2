import VerifiableMix.Proofs.Shuffle

/-!
# Vectors rearranged along a permutation

Permuting and inverting are both rearrangements: the result has the same entries, moved
by a bijection of the places.  So sums and products over all entries stay, and operations
on paired entries may be done before or after.  The two undo each other, and in an inner
product permuting one side comes to inverting the other.

## Main results

* `MovesAlong.paired` — operations on paired entries go through a move.
* `MovesAlong.isRearrangement` — whatever moves entries by a bijection is a rearrangement.
* `rearrangements_isometric` — permuting, inverting and how they go together.
-/

namespace VerifiableMix.ScalarVector

variable {n : Nat}

/-- A rearrangement of the vectors of `n` scalars takes every such vector to one, keeps sum,
product and inner products, and goes through the operations on entries. -/
structure IsRearrangement (n : Nat) (move : ScalarVector → Except Error ScalarVector) : Prop where
  total : ∀ xs : ScalarVector, xs.length = n → ∃ xs', move xs = .ok xs' ∧ xs'.length = n
  sum_eq : ∀ xs xs', move xs = .ok xs' → sum xs' = sum xs
  product_eq : ∀ xs xs', move xs = .ok xs' → product xs' = product xs
  innerProduct_eq : ∀ xs xs' ys ys', move xs = .ok xs' → move ys = .ok ys' →
    ∃ s, innerProduct xs' ys' = .ok s ∧ innerProduct xs ys = .ok s
  neg_eq : ∀ xs xs', move xs = .ok xs' → move (neg xs) = .ok (neg xs')
  add_eq : ∀ xs xs' ys ys', move xs = .ok xs' → move ys = .ok ys' →
    ∃ zs zs', add xs ys = .ok zs ∧ add xs' ys' = .ok zs' ∧ move zs = .ok zs'
  mul_eq : ∀ xs xs' ys ys', move xs = .ok xs' → move ys = .ok ys' →
    ∃ zs zs', mul xs ys = .ok zs ∧ mul xs' ys' = .ok zs' ∧ move zs = .ok zs'
  scaleAdd_eq : ∀ k xs xs' ys ys', move xs = .ok xs' → move ys = .ok ys' →
    ∃ zs zs', scaleAdd xs k ys = .ok zs ∧ scaleAdd xs' k ys' = .ok zs' ∧ move zs = .ok zs'

/-! ## Moving entries by a bijection -/

/-- Entries are moved by a bijection of the places, and only vectors with these places are
taken. -/
structure MovesAlong (pi : Equiv.Perm (Fin n)) (move : ScalarVector → Except Error ScalarVector) :
    Prop where
  move_ofFn : ∀ x : Fin n → Scalar, move (List.ofFn x) = .ok (List.ofFn fun i => x (pi i))
  length_eq : ∀ xs xs', move xs = .ok xs' → xs.length = n

namespace MovesAlong

variable {pi : Equiv.Perm (Fin n)} {move : ScalarVector → Except Error ScalarVector}
  {xs xs' ys ys' : ScalarVector}

/-- A vector that was moved, as a family. -/
theorem exists_ofFn (hmove : MovesAlong pi move) (h : move xs = .ok xs') :
    ∃ x : Fin n → Scalar, xs = List.ofFn x ∧ xs' = List.ofFn fun i => x (pi i) := by
  obtain ⟨x, rfl⟩ := exists_eq_ofFn (hmove.length_eq xs xs' h)
  exact ⟨x, rfl, Except.ok.inj (h.symm.trans (hmove.move_ofFn x))⟩

/-- An operation on paired entries may be done before or after the move. -/
theorem paired (hmove : MovesAlong pi move)
    (op : ScalarVector → ScalarVector → Except Error ScalarVector) (f : Scalar → Scalar → Scalar)
    (hop : ∀ x y : Fin n → Scalar,
      op (List.ofFn x) (List.ofFn y) = .ok (List.ofFn fun i => f (x i) (y i)))
    (hx : move xs = .ok xs') (hy : move ys = .ok ys') :
    ∃ zs zs', op xs ys = .ok zs ∧ op xs' ys' = .ok zs' ∧ move zs = .ok zs' := by
  obtain ⟨x, rfl, rfl⟩ := hmove.exists_ofFn hx
  obtain ⟨y, rfl, rfl⟩ := hmove.exists_ofFn hy
  exact ⟨_, _, hop _ _, hop _ _, hmove.move_ofFn _⟩

/-- Whatever moves entries by a bijection is a rearrangement. -/
theorem isRearrangement (hmove : MovesAlong pi move) : IsRearrangement n move := by
  constructor
  case total =>
    intro xs hxs
    obtain ⟨x, rfl⟩ := exists_eq_ofFn hxs
    exact ⟨_, hmove.move_ofFn x, List.length_ofFn⟩
  case sum_eq =>
    intro xs xs' h
    obtain ⟨x, rfl, rfl⟩ := hmove.exists_ofFn h
    rw [sum_ofFn, sum_ofFn, Equiv.sum_comp pi x]
  case product_eq =>
    intro xs xs' h
    obtain ⟨x, rfl, rfl⟩ := hmove.exists_ofFn h
    rw [product_ofFn, product_ofFn, Equiv.prod_comp pi x]
  case innerProduct_eq =>
    intro xs xs' ys ys' hx hy
    obtain ⟨x, rfl, rfl⟩ := hmove.exists_ofFn hx
    obtain ⟨y, rfl, rfl⟩ := hmove.exists_ofFn hy
    refine ⟨_, innerProduct_ofFn _ _, ?_⟩
    rw [innerProduct_ofFn, Equiv.sum_comp pi fun i => x i * y i]
  case neg_eq =>
    intro xs xs' h
    obtain ⟨x, rfl, rfl⟩ := hmove.exists_ofFn h
    rw [neg_ofFn, neg_ofFn, hmove.move_ofFn]
  case add_eq =>
    intro xs xs' ys ys' hx hy
    exact hmove.paired add (fun a b => a + b) add_ofFn hx hy
  case mul_eq =>
    intro xs xs' ys ys' hx hy
    exact hmove.paired mul (fun a b => a * b) mul_ofFn hx hy
  case scaleAdd_eq =>
    intro k xs xs' ys ys' hx hy
    exact hmove.paired (fun xs ys => scaleAdd xs k ys) (fun a b => a * k + b)
      (fun x y => scaleAdd_ofFn x y k) hx hy

end MovesAlong

/-! ## Permuting and inverting -/

theorem permute_of_length_ne {xs : ScalarVector} {psi : Permutation} (h : xs.length ≠ psi.size) :
    permute xs psi = .error (.lengthMismatch .permute psi.size xs.length) :=
  dif_neg (Ne.symm h)

theorem invert_of_length_ne {xs : ScalarVector} {psi : Permutation} (h : xs.length ≠ psi.size) :
    invert xs psi = .error (.lengthMismatch .invert psi.size xs.length) :=
  dif_neg (Ne.symm h)

theorem movesAlong_permute (psi : Permutation) :
    MovesAlong (psi.toPerm rfl) fun xs => permute xs psi where
  move_ofFn := permute_ofFn psi rfl
  length_eq xs xs' h := by
    by_contra hne
    rw [permute_of_length_ne hne] at h
    cases h

theorem movesAlong_invert (psi : Permutation) :
    MovesAlong (psi.toPerm rfl).symm fun xs => invert xs psi where
  move_ofFn := invert_ofFn psi rfl
  length_eq xs xs' h := by
    by_contra hne
    rw [invert_of_length_ne hne] at h
    cases h

/-- Permuting and inverting along `psi` are rearrangements that undo each other, and inverting
is permuting along the inverse.  In an inner product permuting the left side comes to
inverting the right side.  Vectors of other lengths are refused. -/
structure RearrangesAlong (psi : Permutation) : Prop where
  permutes : IsRearrangement psi.size fun xs => permute xs psi
  inverts : IsRearrangement psi.size fun xs => invert xs psi
  invert_permute : ∀ xs xs', permute xs psi = .ok xs' → invert xs' psi = .ok xs
  permute_invert : ∀ xs xs', invert xs psi = .ok xs' → permute xs' psi = .ok xs
  permute_inverse : ∀ xs xs', invert xs psi = .ok xs' → permute xs psi.inverse = .ok xs'
  adjoint : ∀ xs xs' ys ys', permute xs psi = .ok xs' → invert ys psi = .ok ys' →
    ∃ s, innerProduct xs' ys = .ok s ∧ innerProduct xs ys' = .ok s
  refused : ∀ xs : ScalarVector, xs.length ≠ psi.size →
    permute xs psi = .error (.lengthMismatch .permute psi.size xs.length) ∧
    invert xs psi = .error (.lengthMismatch .invert psi.size xs.length)

/-- Every permutation rearranges vectors isometrically, in both directions. -/
theorem rearrangements_isometric (psi : Permutation) : RearrangesAlong psi := by
  constructor
  case permutes => exact (movesAlong_permute psi).isRearrangement
  case inverts => exact (movesAlong_invert psi).isRearrangement
  case invert_permute =>
    intro xs xs' h
    obtain ⟨x, rfl, rfl⟩ := (movesAlong_permute psi).exists_ofFn h
    simp only [invert_ofFn psi rfl, Equiv.apply_symm_apply]
  case permute_invert =>
    intro xs xs' h
    obtain ⟨x, rfl, rfl⟩ := (movesAlong_invert psi).exists_ofFn h
    simp only [permute_ofFn psi rfl, Equiv.symm_apply_apply]
  case permute_inverse =>
    intro xs xs' h
    obtain ⟨x, rfl, rfl⟩ := (movesAlong_invert psi).exists_ofFn h
    have hsize : psi.inverse.size = psi.size := rfl
    rw [permute_ofFn psi.inverse hsize x, Permutation.toPerm_inverse]
  case adjoint =>
    intro xs xs' ys ys' hx hy
    obtain ⟨x, rfl, rfl⟩ := (movesAlong_permute psi).exists_ofFn hx
    obtain ⟨y, rfl, rfl⟩ := (movesAlong_invert psi).exists_ofFn hy
    refine ⟨_, innerProduct_ofFn _ _, ?_⟩
    rw [innerProduct_ofFn, ← Equiv.sum_comp (psi.toPerm rfl)]
    simp only [Equiv.symm_apply_apply]
  case refused =>
    intro xs hne
    exact ⟨permute_of_length_ne hne, invert_of_length_ne hne⟩

end VerifiableMix.ScalarVector
