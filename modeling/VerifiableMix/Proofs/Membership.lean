import VerifiableMix.Proofs.Commitment.Chain
import VerifiableMix.Proofs.Commitment.Permutation
import VerifiableMix.Proofs.Engine
import VerifiableMix.Proofs.Proof.Elements
import VerifiableMix.Proofs.Proof.Totality
import VerifiableMix.Proofs.Scalar.Prime

/-!
# Membership is kept

Whatever is computed from members are members: reduced, of the width of the group,
and encoded in as many bytes as the modulus.  So a value needs to be checked once,
where it comes in, and what is made of it passes the checks of others.

This does not take a prime modulus, which `Group.create` does not ask for.  The
inverse is a power, and it is right on members because `p - 1` is a multiple of `q`.

Operations on vectors fail when the lengths do not match, and then only.

## Main results

* `Group.admits_iff` — the check is all there is to know about an element.
* `Group.operationsKeepMembers` — every operation, over every group.
-/

namespace VerifiableMix

open VerifiableMix.Group Failure

variable {G : Group} {n w : Nat}

/-! ## What is kept -/

/-- The element passes the check: it is in the subgroup, reduced, has the width of
the group, and is encoded in as many bytes. -/
structure Group.Admits (G : Group) (x : Element) : Prop where
  check : G.checkElement x = .ok ()
  isMember : G.isMember x.value = true
  value_lt : x.value < G.p
  width_eq : x.width = G.width
  length_toBytes : x.toBytes.length = G.width
  length_groupBytes : (G.toBytes x).length = G.width

/-- Both components are admitted. -/
def Group.AdmitsCiphertext (G : Group) (x : Ciphertext) : Prop :=
  G.Admits x.pad ∧ G.Admits x.data

/-- All entries are admitted. -/
def Group.AdmitsVector (G : Group) (xs : ElementVector) : Prop :=
  ∀ x ∈ xs, G.Admits x

/-- All ciphertexts are admitted. -/
def Group.AdmitsRow (G : Group) (row : Row) : Prop :=
  ∀ x ∈ row, G.AdmitsCiphertext x

/-- A computation gives a result exactly when its operands have a shape, and its
results satisfy `P`. -/
structure Delivers {α : Type} (run : Except Error α) (shape : Prop) (P : α → Prop) : Prop where
  total : shape → ∃ x, run = .ok x
  sound : ∀ x, run = .ok x → shape ∧ P x

/-- The check is all there is to know about an element. -/
theorem Group.admits_iff {x : Element} : G.Admits x ↔ G.checkElement x = .ok () := by
  constructor
  · exact Admits.check
  · intro h
    have hmember := checkElement_eq_ok_iff.mp h
    have hlength : x.toBytes.length = G.width := by
      rw [hmember.fitsWidth.length_toBytes, hmember.width_eq]
    have hbytes : G.toBytes x = x.toBytes := by
      rw [Group.toBytes, Element.toBytes, hmember.width_eq]
    have hvalue := isMember_eq_true_iff.mpr ⟨hmember.value_lt, hmember.pow_order⟩
    exact ⟨h, hvalue, hmember.value_lt, hmember.width_eq, hlength, by rw [hbytes, hlength]⟩

namespace Group

theorem Member.admits (x : Member G) : G.Admits x.element :=
  admits_iff.mpr (checkElement_eq_ok_iff.mpr x.isMember)

theorem admitsCiphertext_cipher (x : Cipher G) : G.AdmitsCiphertext (cipher x) :=
  ⟨x.1.admits, x.2.admits⟩

theorem admitsRow_row (r : Fin w → Cipher G) : G.AdmitsRow (row r) := by
  intro x hx
  obtain ⟨k, rfl⟩ := List.mem_ofFn.mp hx
  exact admitsCiphertext_cipher (r k)

end Group

/-! ## Products and powers -/

/-- The inverse of a member is right, whatever the modulus is. -/
theorem Group.mul_inv_of_isMember {x : Element} (h : G.isMember x.value = true) :
    G.mul x (G.inv x) = G.one := by
  obtain ⟨hlt, hpow⟩ := isMember_eq_true_iff.mp h
  let member : Member G := ⟨G.element x.value, rfl, hlt, hpow⟩
  have hproduct : G.mul member.element (G.inv member.element) = G.one := by
    rw [Member.inv_element, Member.mul_element, add_neg_cancel, Member.element_zero]
  exact hproduct

/-- Dividing takes a factor out again, whatever the modulus is. -/
theorem Group.div_mul_of_isMember {x y : Element} (hx : G.isMember x.value = true)
    (hy : G.isMember y.value = true) : G.div (G.mul y x) x = G.element y.value := by
  obtain ⟨hlt, hpow⟩ := isMember_eq_true_iff.mp hx
  obtain ⟨hlt', hpow'⟩ := isMember_eq_true_iff.mp hy
  let a : Member G := ⟨G.element x.value, rfl, hlt, hpow⟩
  let b : Member G := ⟨G.element y.value, rfl, hlt', hpow'⟩
  have hquotient : G.div (G.mul b.element a.element) a.element = b.element := by
    rw [Member.mul_element, Member.div_element, add_sub_cancel_right]
  exact hquotient

namespace Group

variable {x y : Element}

theorem admits_mul (hx : G.checkElement x = .ok ()) (hy : G.checkElement y = .ok ()) :
    G.Admits (G.mul x y) := by
  obtain ⟨x, rfl⟩ := exists_member hx
  obtain ⟨y, rfl⟩ := exists_member hy
  rw [Member.mul_element]
  exact Member.admits _

theorem admits_inv (hx : G.checkElement x = .ok ()) : G.Admits (G.inv x) := by
  obtain ⟨x, rfl⟩ := exists_member hx
  rw [Member.inv_element]
  exact Member.admits _

theorem admits_div (hx : G.checkElement x = .ok ()) (hy : G.checkElement y = .ok ()) :
    G.Admits (G.div x y) :=
  admits_mul hx (admits_inv hy).check

theorem admits_pow (hx : G.checkElement x = .ok ()) (k : Scalar) : G.Admits (G.pow x k) := by
  obtain ⟨x, rfl⟩ := exists_member hx
  rw [Member.pow_element]
  exact Member.admits _

theorem admits_gpow (G : Group) (k : Scalar) : G.Admits (G.gpow k) := by
  rw [Member.gpow_eq]
  exact Member.admits _

theorem admits_prod {xs : ElementVector} (h : xs.validate G = .ok ()) : G.Admits (G.prod xs) := by
  obtain ⟨n, hn⟩ : ∃ n, xs.length = n := ⟨_, rfl⟩
  obtain ⟨x, rfl⟩ := exists_elements hn h
  rw [prod_elements]
  exact Member.admits _

end Group

/-! ## Engines -/

namespace Engine

theorem delivers_powerProduct (engine : Engine) {bases : ElementVector} (exps : ScalarVector)
    (h : bases.validate G = .ok ()) :
    Delivers (engine.powerProduct G bases exps) (bases.length = exps.length) G.Admits where
  total := engine.exists_powerProduct
  sound x hrun := by
    obtain ⟨_, hcheck, _⟩ := bind_eq_ok_iff.mp hrun
    have hlength := checkLength_eq_ok_iff.mp hcheck
    refine ⟨hlength, ?_⟩
    obtain ⟨n, hn⟩ : ∃ n, exps.length = n := ⟨_, rfl⟩
    obtain ⟨b, rfl⟩ := exists_elements (hlength.trans hn) h
    obtain ⟨k, rfl⟩ := exists_eq_ofFn hn
    rw [powerProduct_elements] at hrun
    obtain rfl := Except.ok.inj hrun
    exact Member.admits _

theorem delivers_columnPower (engine : Engine) {rows : List Row} (exps : ScalarVector)
    (h : ∀ row ∈ rows, row.validate G = .ok ()) :
    Delivers (engine.columnPower G rows exps)
      ((∃ width, rowWidth rows = .ok width) ∧ rows.length = exps.length) G.AdmitsRow where
  total := by
    rintro ⟨⟨width, hwidth⟩, hlength⟩
    obtain ⟨row, hrun, _⟩ := engine.exists_columnPower (G := G) hwidth hlength.symm
    exact ⟨row, hrun⟩
  sound row hrun := by
    obtain ⟨width, hwidth, hrest⟩ := bind_eq_ok_iff.mp hrun
    obtain ⟨_, hcheck, _⟩ := bind_eq_ok_iff.mp hrest
    have hlength := checkLength_eq_ok_iff.mp hcheck
    refine ⟨⟨⟨width, hwidth⟩, hlength⟩, ?_⟩
    obtain ⟨n, R, hw, rfl⟩ := exists_rowSet_of_rowWidth hwidth h
    rw [length_rowSet] at hlength
    obtain ⟨k, rfl⟩ := exists_eq_ofFn hlength.symm
    rw [columnPower_rowSet engine hw] at hrun
    obtain rfl := Except.ok.inj hrun
    exact admitsRow_row _

end Engine

/-! ## Ciphertexts -/

namespace Ciphertext

variable {pk : PublicKey} {x y : Ciphertext}

theorem admits_encrypt (hpk : G.checkElement pk.key = .ok ()) (m r : Scalar) :
    G.AdmitsCiphertext (encrypt G pk m r) := by
  obtain ⟨key⟩ := pk
  obtain ⟨key, rfl⟩ := exists_member hpk
  rw [encrypt_eq]
  exact admitsCiphertext_cipher _

theorem admits_encryptZero (hpk : G.checkElement pk.key = .ok ()) (r : Scalar) :
    G.AdmitsCiphertext (encryptZero G pk r) := by
  obtain ⟨key⟩ := pk
  obtain ⟨key, rfl⟩ := exists_member hpk
  rw [encryptZero_eq]
  exact admitsCiphertext_cipher _

theorem admits_reencrypt (hpk : G.checkElement pk.key = .ok ()) (hx : x.validate G = .ok ())
    (r : Scalar) : G.AdmitsCiphertext (x.reencrypt G pk r) := by
  obtain ⟨key⟩ := pk
  obtain ⟨key, rfl⟩ := exists_member hpk
  obtain ⟨x, rfl⟩ := exists_cipher hx
  rw [reencrypt_cipher]
  exact admitsCiphertext_cipher _

theorem admits_mul (hx : x.validate G = .ok ()) (hy : y.validate G = .ok ()) :
    G.AdmitsCiphertext (x.mul G y) := by
  obtain ⟨x, rfl⟩ := exists_cipher hx
  obtain ⟨y, rfl⟩ := exists_cipher hy
  rw [mul_cipher]
  exact admitsCiphertext_cipher _

theorem admits_pow (hx : x.validate G = .ok ()) (k : Scalar) :
    G.AdmitsCiphertext (x.pow G k) := by
  obtain ⟨x, rfl⟩ := exists_cipher hx
  rw [pow_cipher]
  exact admitsCiphertext_cipher _

end Ciphertext

/-! ## Rows -/

/-- A length check and a result. -/
theorem Delivers.checked {α : Type} {P : α → Prop} {check : LengthCheck} {a b : Nat} {x : α}
    (h : P x) : Delivers (do checkLength check a b; return x) (a = b) P where
  total hlength := by
    rw [hlength, checkLength_self]
    exact ⟨x, rfl⟩
  sound y hrun := by
    obtain ⟨_, hcheck, hresult⟩ := bind_eq_ok_iff.mp hrun
    obtain rfl := Except.ok.inj hresult
    exact ⟨checkLength_eq_ok_iff.mp hcheck, h⟩

/-- What holds of all pairs holds of all entries. -/
theorem forall_mem_zipWith {α β γ : Type} {P : γ → Prop} {f : α → β → γ} {xs : List α}
    {ys : List β} (h : ∀ x ∈ xs, ∀ y ∈ ys, P (f x y)) : ∀ z ∈ List.zipWith f xs ys, P z := by
  intro z hz
  rw [← List.map_uncurry_zip_eq_zipWith] at hz
  obtain ⟨⟨x, y⟩, hmem, rfl⟩ := List.mem_map.mp hz
  obtain ⟨hx, hy⟩ := List.of_mem_zip hmem
  exact h x hx y hy

namespace Row

variable {pk : PublicKey} {row row' : Row}

theorem validate_of_mem (h : row.validate G = .ok ()) : ∀ x ∈ row, x.validate G = .ok () :=
  forM_eq_ok_iff.mp h

theorem delivers_encrypt (hpk : G.checkElement pk.key = .ok ()) (ms rs : ScalarVector) :
    Delivers (Row.encrypt G pk ms rs) (ms.length = rs.length) G.AdmitsRow :=
  Delivers.checked <| forall_mem_zipWith fun m _ r _ => Ciphertext.admits_encrypt hpk m r

theorem delivers_reencrypt (hpk : G.checkElement pk.key = .ok ()) (h : row.validate G = .ok ())
    (rs : ScalarVector) :
    Delivers (row.reencrypt G pk rs) (row.length = rs.length) G.AdmitsRow :=
  Delivers.checked <| forall_mem_zipWith fun x hx r _ =>
    Ciphertext.admits_reencrypt hpk (validate_of_mem h x hx) r

theorem delivers_mul (h : row.validate G = .ok ()) (h' : row'.validate G = .ok ()) :
    Delivers (row.mul G row') (row.length = row'.length) G.AdmitsRow :=
  Delivers.checked <| forall_mem_zipWith fun x hx y hy =>
    Ciphertext.admits_mul (validate_of_mem h x hx) (validate_of_mem h' y hy)

theorem admits_pow (h : row.validate G = .ok ()) (k : Scalar) : G.AdmitsRow (row.pow G k) := by
  intro z hz
  obtain ⟨x, hx, rfl⟩ := List.mem_map.mp hz
  exact Ciphertext.admits_pow (validate_of_mem h x hx) k

theorem admits_encryptZeroNeg (hpk : G.checkElement pk.key = .ok ()) (rs : ScalarVector) :
    G.AdmitsRow (Row.encryptZeroNeg G pk rs) := by
  intro z hz
  obtain ⟨r, _, rfl⟩ := List.mem_map.mp hz
  exact Ciphertext.admits_encryptZero hpk (-r)

end Row

/-! ## Commitments -/

theorem PermutationCommitment.delivers_create {generators : ElementVector}
    (h : generators.validate G = .ok ()) (pi : Permutation) (nonces : ScalarVector) :
    Delivers (create G pi generators nonces)
      (pi.size = generators.length ∧ pi.size = nonces.length) fun c =>
        G.AdmitsVector c.commitments where
  total := by
    rintro ⟨hg, hn⟩
    rw [create, dif_pos hg, dif_pos hn]
    exact ⟨_, rfl⟩
  sound c hrun := by
    unfold create at hrun
    split at hrun
    · rename_i hg
      split at hrun
      · rename_i hn
        obtain rfl := Except.ok.inj hrun
        refine ⟨⟨hg, hn⟩, fun y hy => ?_⟩
        obtain ⟨j, rfl⟩ := List.mem_ofFn.mp hy
        exact admits_mul (admits_gpow G _).check (forM_eq_ok_iff.mp h _ (List.get_mem _ _))
      · cases hrun
    · cases hrun

theorem CommitmentChain.delivers_create {h : Element} (hh : G.checkElement h = .ok ())
    (u nonces : ScalarVector) :
    Delivers (create G h u nonces) (u.length = nonces.length) fun chain =>
      G.AdmitsVector chain.commitments where
  total hlength := by
    obtain ⟨n, hn⟩ : ∃ n, nonces.length = n := ⟨_, rfl⟩
    obtain ⟨base, rfl⟩ := exists_member hh
    obtain ⟨weights, rfl⟩ := exists_eq_ofFn (hlength.trans hn)
    obtain ⟨b, rfl⟩ := exists_eq_ofFn hn
    exact ⟨_, create_ofFn base weights b⟩
  sound chain hrun := by
    obtain ⟨⟨rs, us⟩, hexponents, hresult⟩ := bind_eq_ok_iff.mp hrun
    obtain ⟨_, hcheck, _⟩ := bind_eq_ok_iff.mp hexponents
    obtain rfl := Except.ok.inj hresult
    refine ⟨checkLength_eq_ok_iff.mp hcheck, ?_⟩
    exact forall_mem_zipWith fun r _ u _ => admits_mul (admits_gpow G r).check (admits_pow hh u).check

/-! ## All operations -/

/-- What the operations of a group make of members are members. -/
structure Group.OperationsKeepMembers (G : Group) : Prop where
  one : G.Admits G.one
  generator : G.Admits G.generator
  mul : ∀ x y, G.checkElement x = .ok () → G.checkElement y = .ok () → G.Admits (G.mul x y)
  div : ∀ x y, G.checkElement x = .ok () → G.checkElement y = .ok () → G.Admits (G.div x y)
  inv : ∀ x, G.checkElement x = .ok () → G.Admits (G.inv x)
  pow : ∀ x k, G.checkElement x = .ok () → G.Admits (G.pow x k)
  gpow : ∀ k, G.Admits (G.gpow k)
  prod : ∀ xs : ElementVector, xs.validate G = .ok () → G.Admits (G.prod xs)
  mul_inv : ∀ x : Element, G.isMember x.value = true → G.mul x (G.inv x) = G.one
  div_mul : ∀ x y : Element, G.isMember x.value = true → G.isMember y.value = true →
    G.div (G.mul y x) x = G.element y.value
  element_value : ∀ x, G.checkElement x = .ok () → G.element x.value = x
  powerProduct : ∀ (engine : Engine) (bases : ElementVector) (exps : ScalarVector),
    bases.validate G = .ok () →
    Delivers (engine.powerProduct G bases exps) (bases.length = exps.length) G.Admits
  columnPower : ∀ (engine : Engine) (rows : List Row) (exps : ScalarVector),
    (∀ row ∈ rows, row.validate G = .ok ()) →
    Delivers (engine.columnPower G rows exps)
      ((∃ width, rowWidth rows = .ok width) ∧ rows.length = exps.length) G.AdmitsRow
  encrypt : ∀ (pk : PublicKey) (m r : Scalar), G.checkElement pk.key = .ok () →
    G.AdmitsCiphertext (Ciphertext.encrypt G pk m r)
  encryptZero : ∀ (pk : PublicKey) (r : Scalar), G.checkElement pk.key = .ok () →
    G.AdmitsCiphertext (Ciphertext.encryptZero G pk r)
  reencrypt : ∀ (x : Ciphertext) (pk : PublicKey) (r : Scalar), x.validate G = .ok () →
    G.checkElement pk.key = .ok () → G.AdmitsCiphertext (x.reencrypt G pk r)
  mulCiphertext : ∀ x y : Ciphertext, x.validate G = .ok () → y.validate G = .ok () →
    G.AdmitsCiphertext (x.mul G y)
  powCiphertext : ∀ (x : Ciphertext) (k : Scalar), x.validate G = .ok () →
    G.AdmitsCiphertext (x.pow G k)
  encryptRow : ∀ (pk : PublicKey) (ms rs : ScalarVector), G.checkElement pk.key = .ok () →
    Delivers (Row.encrypt G pk ms rs) (ms.length = rs.length) G.AdmitsRow
  reencryptRow : ∀ (row : Row) (pk : PublicKey) (rs : ScalarVector), row.validate G = .ok () →
    G.checkElement pk.key = .ok () →
    Delivers (row.reencrypt G pk rs) (row.length = rs.length) G.AdmitsRow
  mulRow : ∀ row row' : Row, row.validate G = .ok () → row'.validate G = .ok () →
    Delivers (row.mul G row') (row.length = row'.length) G.AdmitsRow
  powRow : ∀ (row : Row) (k : Scalar), row.validate G = .ok () → G.AdmitsRow (row.pow G k)
  encryptZeroNeg : ∀ (pk : PublicKey) (rs : ScalarVector), G.checkElement pk.key = .ok () →
    G.AdmitsRow (Row.encryptZeroNeg G pk rs)
  permutationCommitment : ∀ (pi : Permutation) (generators : ElementVector)
    (nonces : ScalarVector), generators.validate G = .ok () →
    Delivers (PermutationCommitment.create G pi generators nonces)
      (pi.size = generators.length ∧ pi.size = nonces.length) fun c =>
        G.AdmitsVector c.commitments
  commitmentChain : ∀ (h : Element) (u nonces : ScalarVector), G.checkElement h = .ok () →
    Delivers (CommitmentChain.create G h u nonces) (u.length = nonces.length) fun chain =>
      G.AdmitsVector chain.commitments

/-- In every group that can be created, whatever its modulus is, the operations
make members of members. -/
theorem Group.operationsKeepMembers (G : Group) : G.OperationsKeepMembers where
  one := Member.element_zero (G := G) ▸ Member.admits 0
  generator := (Member.generator G).admits
  mul _ _ hx hy := admits_mul hx hy
  div _ _ hx hy := admits_div hx hy
  inv _ hx := admits_inv hx
  pow _ k hx := admits_pow hx k
  gpow := admits_gpow G
  prod _ h := admits_prod h
  mul_inv _ hx := mul_inv_of_isMember hx
  div_mul _ _ hx hy := div_mul_of_isMember hx hy
  element_value x hx := by
    rw [Group.element, ← (admits_iff.mpr hx).width_eq]
  powerProduct engine _ exps h := engine.delivers_powerProduct exps h
  columnPower engine _ exps h := engine.delivers_columnPower exps h
  encrypt _ m r hpk := Ciphertext.admits_encrypt hpk m r
  encryptZero _ r hpk := Ciphertext.admits_encryptZero hpk r
  reencrypt _ _ r hx hpk := Ciphertext.admits_reencrypt hpk hx r
  mulCiphertext _ _ hx hy := Ciphertext.admits_mul hx hy
  powCiphertext _ k hx := Ciphertext.admits_pow hx k
  encryptRow _ ms rs hpk := Row.delivers_encrypt hpk ms rs
  reencryptRow _ _ rs h hpk := Row.delivers_reencrypt hpk h rs
  mulRow _ _ h h' := Row.delivers_mul h h'
  powRow _ k h := Row.admits_pow h k
  encryptZeroNeg _ rs hpk := Row.admits_encryptZeroNeg hpk rs
  permutationCommitment pi _ nonces h := PermutationCommitment.delivers_create h pi nonces
  commitmentChain _ u nonces hh := CommitmentChain.delivers_create hh u nonces

/-- A group whose modulus is the square of that of the 512-bit group. -/
def Group.square : Group where
  name := "square"
  p := test.p * test.p
  r := Scalar.order * (test.r * test.r) + 2 * test.r
  g := powMod test.g test.p (test.p * test.p)
  p_eq := by decide +kernel
  one_lt_g := by decide +kernel
  g_lt_p := by decide +kernel
  g_pow_order := by decide +kernel

/-- The modulus can be composite. -/
theorem Group.operationsKeepMembers_square :
    Group.create square.name square.p square.r square.g = .ok square ∧ ¬ square.p.Prime ∧
      square.Admits (square.inv square.generator) ∧
      square.div (square.mul square.generator square.generator) square.generator =
        square.generator := by
  have hcomposite : ¬ square.p.Prime := Nat.not_prime_mul test.one_lt_p.ne' test.one_lt_p.ne'
  have hkept := operationsKeepMembers square
  have hgenerator := hkept.generator
  refine ⟨square.create_eq_ok, hcomposite, hkept.inv _ hgenerator.check, ?_⟩
  rw [hkept.div_mul _ _ hgenerator.isMember hgenerator.isMember,
    hkept.element_value _ hgenerator.check]

end VerifiableMix
