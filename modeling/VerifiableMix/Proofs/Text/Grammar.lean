import VerifiableMix.Proofs.Text
import VerifiableMix.Proofs.Bytes.Digits

/-!
# What is read as a scalar and as an element

A scalar is written with exactly 64 digits and an element with any even number of them,
half of which is its width.  Reading takes the digits in either case and nothing else, so
that what has been read is written again as the same text in lower case; only the empty
text, which stands for the zero of width zero, is written again as `00`.

The faults of a text are looked for in a fixed order: the parity of its bytes, its first
byte that is no digit, and, for a scalar, the number of bytes and the range.

## Main results

* `Scalar.exists_ofHex_iff`, `Element.exists_ofHex_iff` — what is read.
* `Scalar.ofHex_eq_error_iff`, `Element.ofHex_eq_error_iff` — what is reported otherwise.
* `textForms_exact` — which texts stand for scalars and elements, for which ones, and what
  is reported of the others.
-/

namespace VerifiableMix

/-! ## Scalars -/

namespace Scalar

variable {text : String} {x : Scalar}

/-- What is said of a text that stands for no scalar.  The digits come first; the number of
bytes and then the range are looked at when they are in order. -/
def Refused (text : String) : TextFault → Prop
  | .hex fault => Hex.Refused text fault
  | .value error =>
    (Hex.AllDigits text ∧ text.length % 2 = 0) ∧
      (text.length ≠ 2 * byteWidth ∧ error = .invalidEncoding byteWidth (text.length / 2) ∨
        text.length = 2 * byteWidth ∧ order ≤ Hex.value text ∧ error = .scalarOutOfRange)

/-- The texts of scalars: 64 digits of either case whose number is below the order, which
is the scalar. -/
structure TextForm : Prop where
  accepted : ∀ text, (∃ x, ofHex text = .ok x) ↔
    Hex.AllDigits text ∧ text.length = 64 ∧ Hex.value text < order
  denoted : ∀ text x, ofHex text = .ok x → x.val = Hex.value text
  rewritten : ∀ text x, ofHex text = .ok x → x.toHex = text.map Char.toLower
  reread : ∀ x : Scalar, ofHex x.toHex = .ok x
  refused : ∀ text fault, ofHex text = .error fault ↔ Refused text fault

/-- Bytes are refused for their number, and then for their range. -/
theorem ofBytes_eq_error_iff {bytes : Bytes} {error : Error} :
    ofBytes bytes = .error error ↔
      bytes.length ≠ byteWidth ∧ error = .invalidEncoding byteWidth bytes.length ∨
        bytes.length = byteWidth ∧ order ≤ Bytes.toNatBE bytes ∧ error = .scalarOutOfRange := by
  rw [ofBytes]
  by_cases hlength : bytes.length = byteWidth
  · by_cases hlt : Bytes.toNatBE bytes < order
    · simp [hlength, hlt]
    · simp [hlength, hlt, Nat.le_of_not_lt hlt, eq_comm]
  · simp [hlength, eq_comm]

theorem ofHex_eq_error_iff {fault : TextFault} :
    ofHex text = .error fault ↔ Refused text fault := by
  rw [ofHex]
  cases hread : Hex.decode text with
  | error digits =>
      have hnot : ¬(Hex.AllDigits text ∧ text.length % 2 = 0) :=
        (Hex.exists_refused_iff text).mp ⟨digits, Hex.decode_eq_error_iff.mp hread⟩
      cases fault with
      | hex fault => simp [Refused, ← Hex.decode_eq_error_iff, hread]
      | value error => simp [Refused, hnot]
  | ok bytes =>
      have hdigits := (Hex.exists_decode_iff text).mp ⟨bytes, hread⟩
      have hlength : text.length = 2 * byteWidth ↔ bytes.length = byteWidth := by
        rw [Hex.length_of_decode hread]
        omega
      have hhalf : text.length / 2 = bytes.length := by
        rw [Hex.length_of_decode hread]
        omega
      cases fault with
      | hex fault =>
          simp only [Refused, ← Hex.decode_eq_error_iff, hread]
          cases ofBytes bytes <;> simp
      | value error =>
          simp only [Refused, hdigits, true_and, ne_eq, hlength, hhalf, Hex.value_of_decode hread,
            ← ofBytes_eq_error_iff]
          cases ofBytes bytes <;> simp

theorem ofHex_eq_ok_iff_map : ofHex text = .ok x ↔ text.map Char.toLower = x.toHex := by
  rw [ofHex_eq_ok_iff, Hex.map_lower_ofText_eq_iff]

theorem val_of_ofHex (h : ofHex text = .ok x) : x.val = Hex.value text := by
  obtain ⟨bytes, hread, hbytes⟩ := ofHex_eq_ok_iff_decode.mp h
  rw [Hex.value_of_decode hread, ofBytes_eq_ok_iff.mp hbytes, toNatBE_toBytes]

theorem exists_ofHex_iff (text : String) : (∃ x, ofHex text = .ok x) ↔
    Hex.AllDigits text ∧ text.length = 2 * byteWidth ∧ Hex.value text < order := by
  constructor
  · rintro ⟨x, hx⟩
    obtain ⟨bytes, hread, hbytes⟩ := ofHex_eq_ok_iff_decode.mp hx
    have hdigits := (Hex.exists_decode_iff text).mp ⟨bytes, hread⟩
    refine ⟨hdigits.1, ?_, val_of_ofHex hx ▸ x.isLt⟩
    rw [Hex.length_of_decode hread, ofBytes_eq_ok_iff.mp hbytes, length_toBytes]
  · rintro ⟨hall, hlength, hlt⟩
    cases hread : ofHex text with
    | ok x => exact ⟨x, rfl⟩
    | error fault =>
        have heven : text.length % 2 = 0 := by rw [hlength, Nat.mul_mod_right]
        have hrefused := ofHex_eq_error_iff.mp hread
        cases fault with
        | hex fault =>
            exact absurd ⟨hall, heven⟩ ((Hex.exists_refused_iff text).mp ⟨fault, hrefused⟩)
        | value error =>
            rcases hrefused.2 with ⟨hne, _⟩ | ⟨_, hge, _⟩
            · exact absurd hlength hne
            · exact absurd hlt (Nat.not_lt.mpr hge)

end Scalar

/-! ## Elements -/

namespace Element

variable {text : String} {x : Element}

/-- The texts of elements: an even number of digits of either case, two for each byte of
the width, whose number is the value. -/
structure TextForm : Prop where
  accepted : ∀ text, (∃ x, ofHex text = .ok x) ↔ Hex.AllDigits text ∧ text.length % 2 = 0
  denoted : ∀ text x, ofHex text = .ok x → x.value = Hex.value text ∧ 2 * x.width = text.length
  rewritten : ∀ text x, ofHex text = .ok x →
    x.toHex = if text = "" then "00" else text.map Char.toLower
  reread : ∀ x : Element, ∃ y, ofHex x.toHex = .ok y ∧ y.value = x.value ∧
    (1 ≤ x.width → x.value < 256 ^ x.width → y.width = x.width)
  refused : ∀ text fault, ofHex text = .error fault ↔ ∃ digits, Hex.Refused text digits ∧
    fault = .hex digits

theorem exists_ofHex_iff (text : String) :
    (∃ x, ofHex text = .ok x) ↔ Hex.AllDigits text ∧ text.length % 2 = 0 := by
  rw [← Hex.exists_decode_iff]
  simp only [ofHex_eq_ok_iff_decode]
  exact ⟨fun ⟨_, bytes, hread, _⟩ => ⟨bytes, hread⟩, fun ⟨bytes, hread⟩ => ⟨_, bytes, hread, rfl⟩⟩

theorem denoted_of_ofHex (h : ofHex text = .ok x) :
    x.value = Hex.value text ∧ 2 * x.width = text.length := by
  obtain ⟨bytes, hread, rfl⟩ := ofHex_eq_ok_iff_decode.mp h
  exact ⟨(Hex.value_of_decode hread).symm, (Hex.length_of_decode hread).symm⟩

theorem toHex_of_ofHex (h : ofHex text = .ok x) :
    x.toHex = if text = "" then "00" else text.map Char.toLower := by
  split
  · rename_i htext
    have hzero : ofHex "" = .ok ⟨0, 0⟩ := by decide +kernel
    rw [htext] at h
    obtain rfl := Except.ok.inj (hzero.symm.trans h)
    decide
  · rename_i htext
    have hwidth : x.width ≠ 0 := mt (width_eq_zero_iff_of_ofHex h).mp htext
    have hfits := fitsWidth_of_ofHex h (Nat.pos_of_ne_zero hwidth)
    exact (Hex.map_lower_ofText_eq_iff.mp (hfits.ofHex_eq_ok_iff.mp h)).symm

theorem exists_ofHex_toHex (x : Element) : ∃ y, ofHex x.toHex = .ok y ∧ y.value = x.value ∧
    (1 ≤ x.width → x.value < 256 ^ x.width → y.width = x.width) := by
  refine ⟨ofBytes x.toBytes, ofHex_eq_ok_iff_decode.mpr ⟨_, Hex.decode_encode _, rfl⟩,
    Bytes.toNatBE_padded _ _, fun hpos hlt => ?_⟩
  have hfits : x.FitsWidth := ⟨hpos, hlt⟩
  exact hfits.length_toBytes

theorem ofHex_eq_error_iff {fault : TextFault} :
    ofHex text = .error fault ↔ ∃ digits, Hex.Refused text digits ∧ fault = .hex digits := by
  rw [ofHex]
  simp only [← Hex.decode_eq_error_iff]
  cases Hex.decode text <;> simp [eq_comm]

end Element

/-- Scalars and elements are read from exactly the texts of their grammar and written as
those texts in lower case, and a text outside the grammar is refused for its first fault. -/
theorem textForms_exact : Scalar.TextForm ∧ Element.TextForm where
  left := {
    accepted := Scalar.exists_ofHex_iff
    denoted := fun _ _ => Scalar.val_of_ofHex
    rewritten := fun _ _ h => (Scalar.ofHex_eq_ok_iff_map.mp h).symm
    reread := Scalar.ofHex_toHex
    refused := fun _ _ => Scalar.ofHex_eq_error_iff }
  right := {
    accepted := Element.exists_ofHex_iff
    denoted := fun _ _ => Element.denoted_of_ofHex
    rewritten := fun _ _ => Element.toHex_of_ofHex
    reread := Element.exists_ofHex_toHex
    refused := fun _ _ => Element.ofHex_eq_error_iff }

/-- Four digits in both cases are an element of width two and no scalar; a scalar is refused
for an odd number of bytes before a byte that is no digit, and for that before its width. -/
theorem textForms_exact_mixed :
    (∃ x : Element, Element.ofHex "0fA0" = .ok x ∧ x.value = 0xfa0 ∧ 2 * x.width = 4 ∧
      x.toHex = "0fa0") ∧
    Scalar.ofHex "0fA0" = .error (.value (.invalidEncoding 32 2)) ∧
    Scalar.ofHex "zé" = .error (.hex .oddLength) ∧
    Scalar.ofHex "0é1" = .error (.hex (.invalidDigit 0xc3 1)) := by
  obtain ⟨hscalar, helement⟩ := textForms_exact
  have hdigits : Hex.AllDigits "0fA0" := by decide +kernel
  have hbefore : (Bytes.ofText "0é1").take 1 = [0x30] := by decide +kernel
  have hinvalid : Hex.FirstInvalid (Bytes.ofText "0é1") 0xc3 1 :=
    { found := by decide +kernel
      invalid := by decide +kernel
      earlier := by
        rw [hbefore, List.forall_mem_singleton]
        decide +kernel }
  refine ⟨?_, (hscalar.refused _ _).mpr ?_, (hscalar.refused _ _).mpr ?_,
    (hscalar.refused _ _).mpr ?_⟩
  · obtain ⟨x, hx⟩ := (helement.accepted "0fA0").mpr ⟨hdigits, by decide +kernel⟩
    obtain ⟨hvalue, hwidth⟩ := helement.denoted _ _ hx
    refine ⟨x, hx, hvalue.trans (by decide +kernel), hwidth.trans (by decide +kernel), ?_⟩
    exact (helement.rewritten _ _ hx).trans (by decide +kernel)
  · exact ⟨⟨hdigits, by decide +kernel⟩, .inl ⟨by decide +kernel, by decide +kernel⟩⟩
  · show (Bytes.ofText "zé").length % 2 = 1
    decide +kernel
  · exact ⟨by decide +kernel, hinvalid⟩

end VerifiableMix
