import VerifiableMix.Group
import VerifiableMix.Proofs.Bytes.Hex

/-!
# Scalars and elements as text

A scalar is read back from its bytes and from its text.  So is an element, with its
width, if it has a width and its value fits it: an element of width zero and one that is
too large for its width are written as if they had the least width that holds them.

What is read as a scalar or as an element is its text, with any of the letters in
upper case.  The one exception is the empty text, which is read as the zero of width
zero.

## Main results

* `Scalar.ofHex_eq_ok_iff`, `Element.ofHex_eq_ok_iff` — what stands for a scalar and for
  an element.
* `Element.fitsWidth_of_ofHex` — what is read with a width fits it.
* `Element.width_eq_zero_iff_of_ofHex` — the empty text is the only one of width zero.
-/

namespace VerifiableMix

/-! ## Scalars -/

namespace Scalar

/-- A scalar is read back from its encoding. -/
theorem toNatBE_toBytes (x : Scalar) : Bytes.toNatBE x.toBytes = x.val := by
  have hfits : Scalar.order < 256 ^ byteWidth := by decide
  rw [toBytes, Bytes.toNatBE_ofNatBE, Nat.mod_eq_of_lt (Nat.lt_trans x.isLt hfits)]

@[simp] theorem length_toBytes (x : Scalar) : x.toBytes.length = byteWidth :=
  Bytes.length_ofNatBE _ _

/-- A scalar has one encoding. -/
theorem ofBytes_eq_ok_iff {bytes : Bytes} {x : Scalar} :
    ofBytes bytes = .ok x ↔ bytes = x.toBytes := by
  constructor
  · intro h
    rw [ofBytes] at h
    split at h
    · rename_i hlength
      split at h
      · cases h
        rw [toBytes, ← hlength, Bytes.ofNatBE_toNatBE]
      · cases h
    · cases h
  · rintro rfl
    simp only [ofBytes, length_toBytes, toNatBE_toBytes, x.isLt, if_true, dite_true]

theorem ofHex_eq_ok_iff_decode {text : String} {x : Scalar} :
    ofHex text = .ok x ↔ ∃ bytes, Hex.decode text = .ok bytes ∧ ofBytes bytes = .ok x := by
  rw [ofHex]
  cases Hex.decode text with
  | error fault => simp
  | ok bytes =>
      dsimp only
      cases hread : ofBytes bytes <;> simp [hread]

/-- What stands for a scalar is its text, up to the case of the letters. -/
theorem ofHex_eq_ok_iff {text : String} {x : Scalar} :
    ofHex text = .ok x ↔ (Bytes.ofText text).map Hex.lower = Bytes.ofText x.toHex := by
  rw [toHex, ← Hex.decode_eq_ok_iff, ofHex_eq_ok_iff_decode]
  simp only [ofBytes_eq_ok_iff, exists_eq_right]

/-- The text of a scalar stands for it. -/
theorem ofHex_toHex (x : Scalar) : ofHex x.toHex = .ok x :=
  ofHex_eq_ok_iff.mpr (Hex.lower_ofText_encode _)

end Scalar

/-! ## Elements -/

namespace Element

/-- The element has a width, and its value fits it. -/
structure FitsWidth (x : Element) : Prop where
  pos : 0 < x.width
  lt : x.value < 256 ^ x.width

/-- Is there a width, and does the value fit it? -/
instance (x : Element) : Decidable x.FitsWidth :=
  decidable_of_iff (0 < x.width ∧ x.value < 256 ^ x.width)
    ⟨fun h => ⟨h.1, h.2⟩, fun h => ⟨h.pos, h.lt⟩⟩

variable {x : Element} {text : String}

theorem FitsWidth.toBytes_eq (h : x.FitsWidth) : x.toBytes = Bytes.ofNatBE x.width x.value :=
  Bytes.padded_eq_ofNatBE h.pos h.lt

theorem FitsWidth.length_toBytes (h : x.FitsWidth) : x.toBytes.length = x.width := by
  rw [h.toBytes_eq, Bytes.length_ofNatBE]

/-- An element that fits its width has one encoding. -/
theorem FitsWidth.ofBytes_eq_iff (h : x.FitsWidth) {bytes : Bytes} :
    ofBytes bytes = x ↔ bytes = x.toBytes := by
  constructor
  · rintro rfl
    rw [h.toBytes_eq]
    exact (Bytes.ofNatBE_toNatBE bytes).symm
  · rintro rfl
    rw [ofBytes, h.length_toBytes, h.toBytes_eq, Bytes.toNatBE_ofNatBE, Nat.mod_eq_of_lt h.lt]

theorem ofHex_eq_ok_iff_decode :
    ofHex text = .ok x ↔ ∃ bytes, Hex.decode text = .ok bytes ∧ ofBytes bytes = x := by
  rw [ofHex]
  cases Hex.decode text <;> simp

/-- What stands for an element is its text, up to the case of the letters. -/
theorem FitsWidth.ofHex_eq_ok_iff (h : x.FitsWidth) :
    ofHex text = .ok x ↔ (Bytes.ofText text).map Hex.lower = Bytes.ofText x.toHex := by
  rw [toHex, ← Hex.decode_eq_ok_iff, ofHex_eq_ok_iff_decode]
  simp only [h.ofBytes_eq_iff, exists_eq_right]

/-- The text of an element that fits its width stands for it. -/
theorem FitsWidth.ofHex_toHex (h : x.FitsWidth) : ofHex x.toHex = .ok x :=
  h.ofHex_eq_ok_iff.mpr (Hex.lower_ofText_encode _)

/-- What is read with a width fits it. -/
theorem fitsWidth_of_ofHex (h : ofHex text = .ok x) (hwidth : 0 < x.width) : x.FitsWidth := by
  obtain ⟨bytes, _, rfl⟩ := ofHex_eq_ok_iff_decode.mp h
  exact ⟨hwidth, Bytes.toNatBE_lt bytes⟩

/-- The empty text is the only one that is read with width zero. -/
theorem width_eq_zero_iff_of_ofHex (h : ofHex text = .ok x) : x.width = 0 ↔ text = "" := by
  obtain ⟨bytes, hdecode, rfl⟩ := ofHex_eq_ok_iff_decode.mp h
  have hlength := congrArg List.length (Hex.decode_eq_ok_iff.mp hdecode)
  rw [List.length_map, Hex.length_ofText_encode] at hlength
  have hempty : (Bytes.ofText text).length = 0 ↔ text = "" := by
    rw [List.length_eq_zero_iff]
    exact ⟨fun hnil => Bytes.ofText_injective hnil, fun hnil => by rw [hnil]; rfl⟩
  rw [← hempty, hlength]
  show bytes.length = 0 ↔ _
  omega

end Element

/-- A number below the modulus fits the width of the group. -/
theorem Group.fitsWidth_element (G : Group) {value : Nat} (h : value < G.p) :
    (G.element value).FitsWidth where
  pos := by
    have hpos : ¬ G.width ≤ 0 := fun hzero =>
      Nat.lt_irrefl _ (Nat.lt_trans G.one_lt_p (Bytes.byteLength_le_iff.mp hzero))
    exact Nat.lt_of_not_le hpos
  lt := Nat.lt_trans h (Bytes.byteLength_le_iff.mp (Nat.le_refl G.width))

end VerifiableMix
