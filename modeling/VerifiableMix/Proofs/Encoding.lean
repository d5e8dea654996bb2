import VerifiableMix.Key
import VerifiableMix.Proofs.Membership
import VerifiableMix.Proofs.Scalar.Vector
import VerifiableMix.Proofs.Text

/-!
# Fixed-width encodings

Scalars, members of a group and the two kinds of keys are written at a fixed width, most
significant byte first.  An encoding is *canonical* when the byte strings of that width
with an accepted value and the objects with that value stand for each other: each of
these byte strings is read as one object, which is written as that byte string again.

What is written is the shortest form of the value behind zero bytes.  It has room for the
shortest form because accepted values are below `q`, for scalars, or below the modulus,
whose byte length is the width of the group.

## Main results

* `CanonicalEncoding.of_padded` — what makes an encoding canonical.
* `Scalar.reduced` — whatever makes a scalar gives a residue below `q`.
* `Group.encodings_canonical` — the four encodings are canonical.
-/

namespace VerifiableMix

/-! ## Canonical encodings -/

section Canonical

variable {α β : Type} {width : Nat} {Accepts : Nat → Prop} {value : α → Nat} {ofValue : Nat → α}
  {encode : α → Bytes} {decode : Bytes → Except Error α}

/-- The byte strings of one width whose value is accepted, and the objects with that
value, stand for each other. -/
structure CanonicalEncoding (width : Nat) (Accepts : Nat → Prop) (value : α → Nat)
    (ofValue : Nat → α) (encode : α → Bytes) (decode : Bytes → Except Error α) : Prop where
  decode_ok_iff : ∀ bytes, (∃ x, decode bytes = .ok x) ↔
    bytes.length = width ∧ Accepts (Bytes.toNatBE bytes)
  decode_eq : ∀ bytes x, decode bytes = .ok x → x = ofValue (Bytes.toNatBE bytes)
  encode_decode : ∀ bytes x, decode bytes = .ok x → encode x = bytes
  length_shortest : ∀ x, Accepts (value x) → (Bytes.shortest (value x)).length ≤ width
  encode_eq : ∀ x, Accepts (value x) → encode x =
    List.replicate (width - (Bytes.shortest (value x)).length) 0 ++ Bytes.shortest (value x)
  length_encode : ∀ x, Accepts (value x) → (encode x).length = width
  decode_encode : ∀ x, Accepts (value x) → decode (encode x) = .ok (ofValue (value x))

/-- An encoding is canonical when accepted values fit the width, objects are written by
filling up their value, and byte strings are read by their value alone. -/
theorem CanonicalEncoding.of_padded (hwidth : 0 < width)
    (hfits : ∀ n, Accepts n → n < 256 ^ width)
    (hencode : ∀ x, Accepts (value x) → encode x = Bytes.padded width (value x))
    (hvalue : ∀ n, Accepts n → value (ofValue n) = n)
    (hdecode : ∀ bytes x, decode bytes = .ok x ↔
      bytes.length = width ∧ Accepts (Bytes.toNatBE bytes) ∧ x = ofValue (Bytes.toNatBE bytes)) :
    CanonicalEncoding width Accepts value ofValue encode decode := by
  have hpadded : ∀ x, Accepts (value x) → encode x = Bytes.ofNatBE width (value x) :=
    fun x haccepts => by
      rw [hencode x haccepts, Bytes.padded_eq_ofNatBE hwidth (hfits _ haccepts)]
  have hlength : ∀ x, Accepts (value x) → (encode x).length = width := fun x haccepts => by
    rw [hpadded x haccepts, Bytes.length_ofNatBE]
  exact
    { decode_ok_iff := fun bytes => by simp [hdecode]
      decode_eq := fun bytes x h => ((hdecode bytes x).mp h).2.2
      encode_decode := fun bytes x h => by
        obtain ⟨hbytes, haccepts, rfl⟩ := (hdecode bytes x).mp h
        have hx := hvalue _ haccepts
        rw [hpadded _ (hx.symm ▸ haccepts), hx, ← hbytes, Bytes.ofNatBE_toNatBE]
      length_shortest := fun x haccepts => Bytes.length_shortest_le hwidth (hfits _ haccepts)
      encode_eq := fun x haccepts => by rw [hencode x haccepts, Bytes.padded_eq_append]
      length_encode := hlength
      decode_encode := fun x haccepts => by
        have hread : Bytes.toNatBE (encode x) = value x := by
          rw [hencode x haccepts, Bytes.toNatBE_padded]
        exact (hdecode _ _).mpr ⟨hlength x haccepts, by rwa [hread], by rw [hread]⟩ }

/-- An object that is the one with its value is read back as it was. -/
theorem CanonicalEncoding.decode_encode_self
    (h : CanonicalEncoding width Accepts value ofValue encode decode) {x : α}
    (haccepts : Accepts (value x)) (hself : ofValue (value x) = x) :
    decode (encode x) = .ok x := by
  rw [h.decode_encode x haccepts, hself]

/-- What wraps an object is encoded as the object. -/
theorem CanonicalEncoding.map (h : CanonicalEncoding width Accepts value ofValue encode decode)
    {wrap : α → β} {unwrap : β → α} (hunwrap : ∀ x, unwrap (wrap x) = x) :
    CanonicalEncoding width Accepts (fun y => value (unwrap y)) (fun n => wrap (ofValue n))
      (fun y => encode (unwrap y)) (fun bytes => (decode bytes).map wrap) := by
  have hmap : ∀ bytes y, (decode bytes).map wrap = .ok y ↔
      ∃ x, decode bytes = .ok x ∧ wrap x = y := by
    intro bytes y
    cases decode bytes <;> simp [Except.map]
  exact
    { decode_ok_iff := fun bytes => by simp [hmap, ← h.decode_ok_iff]
      decode_eq := fun bytes y hread => by
        obtain ⟨x, hx, rfl⟩ := (hmap bytes y).mp hread
        rw [h.decode_eq bytes x hx]
      encode_decode := fun bytes y hread => by
        obtain ⟨x, hx, rfl⟩ := (hmap bytes y).mp hread
        rw [hunwrap, h.encode_decode bytes x hx]
      length_shortest := fun y => h.length_shortest (unwrap y)
      encode_eq := fun y => h.encode_eq (unwrap y)
      length_encode := fun y => h.length_encode (unwrap y)
      decode_encode := fun y haccepts =>
        (hmap _ _).mpr ⟨_, h.decode_encode (unwrap y) haccepts, rfl⟩ }

end Canonical

/-! ## Scalars -/

namespace Scalar

/-- Whatever makes a scalar gives the residue below `q` of the number that it stands for;
where a number is subtracted, it is not the larger one. -/
structure Reduced : Prop where
  val_lt : ∀ x : Scalar, x.val < order
  zero : (0 : Scalar).val = 0
  one : (1 : Scalar).val = 1
  ofNat : ∀ n, (Scalar.ofNat n).val = n % order
  ofBytesWide : ∀ bytes, (Scalar.ofBytesWide bytes).val = Bytes.toNatBE bytes % order
  ofBytes : ∀ bytes x, Scalar.ofBytes bytes = .ok x → x.val = Bytes.toNatBE bytes
  ofHex : ∀ text x, Scalar.ofHex text = .ok x →
    ∃ bytes, Hex.decode text = .ok bytes ∧ x.val = Bytes.toNatBE bytes
  add : ∀ x y : Scalar, (x + y).val = (x.val + y.val) % order
  mul : ∀ x y : Scalar, (x * y).val = x.val * y.val % order
  sub_le : ∀ x y : Scalar, y.val ≤ x.val + order
  sub : ∀ x y : Scalar, ((x - y).val : Int) = ((x.val : Int) - y.val) % order
  neg_le : ∀ x : Scalar, x.val ≤ order
  neg : ∀ x : Scalar, ((-x).val : Int) = -(x.val : Int) % order
  sum : ∀ xs : ScalarVector, xs.sum.val = (xs.map val).sum % order
  product : ∀ xs : ScalarVector, xs.product.val = (xs.map val).prod % order

theorem sub_le (x y : Scalar) : y.val ≤ x.val + order :=
  Nat.le_trans (Nat.le_of_lt y.isLt) (Nat.le_add_left _ _)

theorem val_sub_int (x y : Scalar) : ((x - y).val : Int) = ((x.val : Int) - y.val) % order := by
  have hsplit : (x.val : Int) + order - y.val = (x.val : Int) - y.val + order := by ring
  rw [val_sub, Int.natCast_emod, Nat.cast_sub (sub_le x y), Nat.cast_add, hsplit,
    Int.add_emod_right]

theorem val_neg_int (x : Scalar) : ((-x).val : Int) = -(x.val : Int) % order := by
  have hsplit : (order : Int) - x.val = -(x.val : Int) + order := by ring
  rw [val_neg, Int.natCast_emod, Nat.cast_sub (Nat.le_of_lt x.isLt), hsplit, Int.add_emod_right]

theorem val_sum (xs : ScalarVector) : xs.sum.val = (xs.map val).sum % order := by
  rw [ScalarVector.sum_eq]
  induction xs with
  | nil => rfl
  | cons x rest ih => rw [List.sum_cons, val_add, ih, List.map_cons, List.sum_cons, Nat.add_mod_mod]

theorem val_product (xs : ScalarVector) : xs.product.val = (xs.map val).prod % order := by
  rw [ScalarVector.product_eq]
  induction xs with
  | nil => rfl
  | cons x rest ih =>
      rw [List.prod_cons, val_mul, ih, List.map_cons, List.prod_cons, Nat.mul_mod_mod]

/-- What stands for a scalar is a byte string of its width with a value below `q`. -/
theorem ofBytes_eq_ok_iff_value {bytes : Bytes} {x : Scalar} :
    ofBytes bytes = .ok x ↔
      bytes.length = byteWidth ∧ Bytes.toNatBE bytes < order ∧
        x = Scalar.ofNat (Bytes.toNatBE bytes) := by
  constructor
  · intro h
    obtain rfl := ofBytes_eq_ok_iff.mp h
    rw [toNatBE_toBytes]
    exact ⟨length_toBytes x, x.isLt, (ofNat_val x).symm⟩
  · rintro ⟨hlength, hlt, rfl⟩
    have hvalue : Scalar.ofNat (Bytes.toNatBE bytes) = ⟨Bytes.toNatBE bytes, hlt⟩ :=
      Scalar.ext (Nat.mod_eq_of_lt hlt)
    rw [ofBytes, if_pos hlength, dif_pos hlt, hvalue]

theorem val_of_ofBytes {bytes : Bytes} {x : Scalar} (h : ofBytes bytes = .ok x) :
    x.val = Bytes.toNatBE bytes := by
  obtain ⟨_, hlt, rfl⟩ := ofBytes_eq_ok_iff_value.mp h
  exact Nat.mod_eq_of_lt hlt

/-- Whatever makes a scalar gives a residue below `q`. -/
theorem reduced : Reduced where
  val_lt := isLt
  zero := rfl
  one := rfl
  ofNat _ := rfl
  ofBytesWide _ := rfl
  ofBytes _ _ := val_of_ofBytes
  ofHex text x h := by
    obtain ⟨bytes, hdecode, hread⟩ := ofHex_eq_ok_iff_decode.mp h
    exact ⟨bytes, hdecode, val_of_ofBytes hread⟩
  add := val_add
  mul := val_mul
  sub_le := sub_le
  sub := val_sub_int
  neg_le x := Nat.le_of_lt x.isLt
  neg := val_neg_int
  sum := val_sum
  product := val_product

theorem canonicalEncoding :
    CanonicalEncoding byteWidth (· < order) val Scalar.ofNat toBytes ofBytes := by
  have hfits : order < 256 ^ byteWidth := by decide
  have hlt : ∀ n, n < order → n < 256 ^ byteWidth := fun n hn => Nat.lt_trans hn hfits
  refine .of_padded (by decide) hlt (fun x hx => ?_) (fun n hn => Nat.mod_eq_of_lt hn)
    fun bytes x => ofBytes_eq_ok_iff_value
  rw [toBytes, Bytes.padded_eq_ofNatBE (by decide) (hlt _ hx)]

end Scalar

/-! ## Members -/

namespace Group

variable {G : Group}

/-- The width of a group is the exact byte length of its modulus. -/
theorem width_exact (G : Group) : 256 ^ (G.width - 1) ≤ G.p ∧ G.p < 256 ^ G.width :=
  ⟨Bytes.pow_byteLength_pred_le (Nat.ne_of_gt (Nat.zero_lt_of_lt G.one_lt_p)),
    Bytes.byteLength_le_iff.mp (Nat.le_refl _)⟩

theorem ofBytes_eq_ok_iff {bytes : Bytes} {x : Element} :
    G.ofBytes bytes = .ok x ↔
      bytes.length = G.width ∧ G.isMember (Bytes.toNatBE bytes) = true ∧
        x = G.element (Bytes.toNatBE bytes) := by
  rw [Group.ofBytes, Group.member]
  by_cases hlength : bytes.length = G.width
  · by_cases hmember : G.isMember (Bytes.toNatBE bytes) = true
    · simp [hlength, hmember, eq_comm]
    · simp [hlength, hmember]
  · simp [hlength]

theorem canonicalEncoding (G : Group) :
    CanonicalEncoding G.width (fun n => G.isMember n = true) Element.value G.element G.toBytes
      G.ofBytes :=
  .of_padded (G.fitsWidth_element (Nat.zero_lt_of_lt G.one_lt_p)).pos
    (fun _ hmember => (G.fitsWidth_element (isMember_eq_true_iff.mp hmember).1).lt)
    (fun _ _ => rfl) (fun _ _ => rfl) fun _ _ => ofBytes_eq_ok_iff

end Group

/-! ## Keys -/

theorem SecretKey.canonicalEncoding :
    CanonicalEncoding Scalar.byteWidth (· < Scalar.order) (fun sk => sk.exponent.val)
      (fun n => ⟨Scalar.ofNat n⟩) SecretKey.toBytes SecretKey.ofBytes :=
  Scalar.canonicalEncoding.map fun _ => rfl

theorem PublicKey.canonicalEncoding (G : Group) :
    CanonicalEncoding G.width (fun n => G.isMember n = true) (fun pk => pk.key.value)
      (fun n => ⟨G.element n⟩) (PublicKey.toBytes G) (PublicKey.ofBytes G) :=
  G.canonicalEncoding.map fun _ => rfl

/-! ## All encodings -/

namespace Group

variable {G : Group}

/-- The encodings of scalars, members and keys are canonical, and objects are read back as
they were. -/
structure EncodesCanonically (G : Group) : Prop where
  reduced : Scalar.Reduced
  scalars : CanonicalEncoding 32 (· < Scalar.order) Scalar.val Scalar.ofNat Scalar.toBytes
    Scalar.ofBytes
  ofBytes_toBytes_scalar : ∀ x : Scalar, Scalar.ofBytes x.toBytes = .ok x
  width_exact : 256 ^ (G.width - 1) ≤ G.p ∧ G.p < 256 ^ G.width
  members : CanonicalEncoding G.width (fun n => G.isMember n = true) Element.value G.element
    G.toBytes G.ofBytes
  ofBytes_toBytes_member : ∀ x : Element, G.isMember x.value = true → x.width = G.width →
    G.ofBytes (G.toBytes x) = .ok x
  secretKeys : CanonicalEncoding 32 (· < Scalar.order) (fun sk => sk.exponent.val)
    (fun n => ⟨Scalar.ofNat n⟩) SecretKey.toBytes SecretKey.ofBytes
  ofBytes_toBytes_secretKey : ∀ sk : SecretKey, SecretKey.ofBytes sk.toBytes = .ok sk
  publicKeys : CanonicalEncoding G.width (fun n => G.isMember n = true) (fun pk => pk.key.value)
    (fun n => ⟨G.element n⟩) (PublicKey.toBytes G) (PublicKey.ofBytes G)
  ofBytes_toBytes_publicKey : ∀ pk : PublicKey, G.isMember pk.key.value = true →
    pk.key.width = G.width → PublicKey.ofBytes G (pk.toBytes G) = .ok pk

theorem isMember_generator (G : Group) : G.isMember G.generator.value = true :=
  (Member.generator G).admits.isMember

theorem element_value_of_width {x : Element} (h : x.width = G.width) : G.element x.value = x := by
  rw [Group.element, ← h]

/-- In every group that can be created the encodings are canonical. -/
theorem encodings_canonical (G : Group) : G.EncodesCanonically where
  reduced := Scalar.reduced
  scalars := Scalar.canonicalEncoding
  ofBytes_toBytes_scalar x :=
    Scalar.canonicalEncoding.decode_encode_self x.isLt (Scalar.ofNat_val x)
  width_exact := G.width_exact
  members := G.canonicalEncoding
  ofBytes_toBytes_member _ hmember hwidth :=
    G.canonicalEncoding.decode_encode_self hmember (element_value_of_width hwidth)
  secretKeys := SecretKey.canonicalEncoding
  ofBytes_toBytes_secretKey sk :=
    SecretKey.canonicalEncoding.decode_encode_self sk.exponent.isLt (by rw [Scalar.ofNat_val])
  publicKeys := PublicKey.canonicalEncoding G
  ofBytes_toBytes_publicKey _ hmember hwidth :=
    (PublicKey.canonicalEncoding G).decode_encode_self hmember
      (by rw [element_value_of_width hwidth])

/-- Over a modulus that is not prime the generator is read back from 128 bytes, but a number
that is no member is not read; nor is `q` as a scalar, while zero has 32 zero bytes. -/
theorem encodings_canonical_square :
    square.width = 128 ∧
    square.ofBytes (square.toBytes square.generator) = .ok square.generator ∧
    (square.toBytes square.generator).length = 128 ∧
    (¬ ∃ x, square.ofBytes (List.replicate 128 0) = .ok x) ∧
    Scalar.ofBytes (0 : Scalar).toBytes = .ok 0 ∧
    (0 : Scalar).toBytes = List.replicate 32 0 ∧
    ¬ ∃ x, Scalar.ofBytes (Bytes.ofNatBE 32 Scalar.order) = .ok x := by
  have hcanonical := encodings_canonical square
  have hwidth : square.width = 128 := by decide +kernel
  have hmember := isMember_generator square
  refine ⟨hwidth, hcanonical.ofBytes_toBytes_member _ hmember rfl, ?_, ?_,
    hcanonical.ofBytes_toBytes_scalar 0, ?_, ?_⟩
  · rw [hcanonical.members.length_encode _ hmember, hwidth]
  · rw [hcanonical.members.decode_ok_iff]
    rintro ⟨_, hzero⟩
    exact absurd hzero (by decide +kernel)
  · have hzero := hcanonical.scalars.encode_eq 0 Scalar.order_pos
    exact hzero.trans (by decide +kernel)
  · rw [hcanonical.scalars.decode_ok_iff]
    rintro ⟨_, hlt⟩
    exact absurd hlt (by decide +kernel)

end Group

end VerifiableMix
