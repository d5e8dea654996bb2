import VerifiableMix.Bytes.Lemmas
import VerifiableMix.Bytes.Hex
import VerifiableMix.Proofs.Failure

/-!
# Hexadecimal text and its letter case

A byte string has one hexadecimal text, in lower case.  What is read is that text
with any of its letters in upper case, and nothing else: `lower` takes the codes of
the letters to lower case, and a text stands for the bytes whose own text its codes
then spell.

## Main results

* `ofText_encode` — the codes of a hexadecimal text.
* `decode_eq_ok_iff` — what stands for a byte string.
* `decode_encode` — the text of a byte string does.
-/

namespace VerifiableMix

namespace Bytes

/-- The UTF-8 bytes of a text are those of its characters. -/
theorem ofText_ofList (cs : List Char) :
    ofText (String.ofList cs) = cs.flatMap String.utf8EncodeChar := by
  rw [ofText, String.toUTF8_eq_toByteArray, String.toByteArray_ofList, List.utf8Encode,
    List.data_toByteArray]

end Bytes

namespace Hex

open Failure

/-! ## Codes of digits -/

/-- The code of a letter in lower case, and every other code as it is. -/
def lower (code : UInt8) : UInt8 :=
  if 65 ≤ code ∧ code ≤ 90 then code + 32 else code

/-- The code of a lower-case digit. -/
def digitCode (n : Nat) : UInt8 :=
  UInt8.ofNat (Nat.digitChar n).toNat

/-- The codes of the two digits of a byte. -/
def codes (b : UInt8) : List UInt8 :=
  [digitCode (b.toNat / 16), digitCode (b.toNat % 16)]

theorem high_lt (b : UInt8) : b.toNat / 16 < 16 :=
  Nat.div_lt_of_lt_mul b.toNat_lt

theorem low_lt (b : UInt8) : b.toNat % 16 < 16 :=
  Nat.mod_lt _ (by decide)

theorem utf8EncodeChar_digitChar {n : Nat} (h : n < 16) :
    String.utf8EncodeChar (Nat.digitChar n) = [digitCode n] := by
  have hall : ∀ k : Fin 16, String.utf8EncodeChar (Nat.digitChar k) = [digitCode k] := by decide
  exact hall ⟨n, h⟩

theorem lower_digitCode {n : Nat} (h : n < 16) : lower (digitCode n) = digitCode n := by
  have hall : ∀ k : Fin 16, lower (digitCode k) = digitCode k := by decide
  exact hall ⟨n, h⟩

/-- The codes of a hexadecimal text. -/
theorem ofText_encode (bytes : Bytes) : Bytes.ofText (encode bytes) = bytes.flatMap codes := by
  rw [encode, Bytes.ofText_ofList, List.flatMap_assoc]
  congr 1
  funext b
  simp [digits, codes, utf8EncodeChar_digitChar (high_lt b), utf8EncodeChar_digitChar (low_lt b)]

/-- A hexadecimal text is in lower case. -/
theorem lower_ofText_encode (bytes : Bytes) :
    (Bytes.ofText (encode bytes)).map lower = Bytes.ofText (encode bytes) := by
  rw [ofText_encode, List.map_flatMap]
  congr 1
  funext b
  simp [codes, lower_digitCode (high_lt b), lower_digitCode (low_lt b)]

theorem length_ofText_encode (bytes : Bytes) :
    (Bytes.ofText (encode bytes)).length = 2 * bytes.length := by
  rw [ofText_encode]
  induction bytes with
  | nil => rfl
  | cons b rest ih =>
      rw [List.flatMap_cons, List.length_append, ih, List.length_cons]
      simp only [codes, List.length_cons, List.length_nil]
      omega

/-! ## Reading digits -/

theorem lt_of_digitValue? {code : UInt8} {n : Nat} (h : digitValue? code = some n) : n < 16 := by
  simp only [digitValue?] at h
  split at h
  · cases h; omega
  · split at h
    · cases h; omega
    · split at h
      · cases h; omega
      · cases h

/-- What has the value of a digit is that digit, up to its case. -/
theorem digitValue?_eq_some_iff {code : UInt8} {n : Nat} (h : n < 16) :
    digitValue? code = some n ↔ lower code = digitCode n := by
  have hall : ∀ (k : Fin 256) (n : Fin 16),
      digitValue? (UInt8.ofNat k) = some n.val ↔ lower (UInt8.ofNat k) = digitCode n := by
    decide +kernel
  have hcode := hall ⟨code.toNat, code.toNat_lt⟩ ⟨n, h⟩
  rwa [UInt8.ofNat_toNat] at hcode

theorem readDigit_eq_ok_iff {position : Nat} {code : UInt8} {n : Nat} :
    readDigit position code = .ok n ↔ digitValue? code = some n := by
  rw [readDigit]
  cases digitValue? code <;> simp

/-- Two digits stand for a byte when they are its digits, up to their case. -/
theorem digitPair_iff {high low b : UInt8} :
    (∃ h l, digitValue? high = some h ∧ digitValue? low = some l ∧ UInt8.ofNat (16 * h + l) = b) ↔
      [lower high, lower low] = codes b := by
  constructor
  · rintro ⟨h, l, hh, hl, rfl⟩
    have hh16 := lt_of_digitValue? hh
    have hl16 := lt_of_digitValue? hl
    have hvalue : (UInt8.ofNat (16 * h + l)).toNat = 16 * h + l := by
      rw [UInt8.toNat_ofNat']
      omega
    have hdiv : (16 * h + l) / 16 = h := by omega
    have hmod : (16 * h + l) % 16 = l := by omega
    rw [codes, hvalue, hdiv, hmod, (digitValue?_eq_some_iff hh16).mp hh,
      (digitValue?_eq_some_iff hl16).mp hl]
  · intro h
    obtain ⟨hhigh, hlow⟩ := List.cons.inj h
    refine ⟨b.toNat / 16, b.toNat % 16, (digitValue?_eq_some_iff (high_lt b)).mpr hhigh,
      (digitValue?_eq_some_iff (low_lt b)).mpr (List.cons.inj hlow).1, ?_⟩
    rw [Nat.div_add_mod, UInt8.ofNat_toNat]

/-- An even number of digits stands for the bytes whose digits they are, up to their
case. -/
theorem readPairs_eq_ok_iff {position : Nat} {text : List UInt8} {bytes : Bytes} :
    text.length % 2 = 0 ∧ readPairs position text = .ok bytes ↔
      text.map lower = bytes.flatMap codes := by
  fun_induction readPairs position text generalizing bytes with
  | case1 position high low rest ih =>
      have hlength : (high :: low :: rest).length % 2 = rest.length % 2 := by
        simp only [List.length_cons]
        omega
      simp only [hlength, bind_eq_ok_iff, pure_eq_ok, Except.ok.injEq, readDigit_eq_ok_iff]
      cases bytes with
      | nil => simp
      | cons b bytes =>
          have hpair := @digitPair_iff high low b
          have hrest := @ih bytes
          simp only [List.map_cons, List.flatMap_cons, List.cons.injEq]
          have hsplit : lower high :: lower low :: rest.map lower = codes b ++ bytes.flatMap codes ↔
              [lower high, lower low] = codes b ∧ rest.map lower = bytes.flatMap codes := by
            simp [codes, and_assoc]
          rw [hsplit, ← hpair, ← hrest]
          constructor
          · rintro ⟨heven, h, hh, l, hl, _, hread, hb, rfl⟩
            exact ⟨⟨h, l, hh, hl, hb⟩, heven, hread⟩
          · rintro ⟨⟨h, l, hh, hl, hb⟩, heven, hread⟩
            exact ⟨heven, h, hh, l, hl, bytes, hread, hb, rfl⟩
  | case2 text position hshort =>
      match text with
      | [] => cases bytes <;> simp [codes]
      | [code] => cases bytes <;> simp [codes]
      | high :: low :: rest => exact (hshort high low rest rfl).elim

/-! ## Reading texts -/

/-- What stands for a byte string is its text, up to the case of the letters. -/
theorem decode_eq_ok_iff {text : String} {bytes : Bytes} :
    decode text = .ok bytes ↔
      (Bytes.ofText text).map lower = Bytes.ofText (encode bytes) := by
  rw [ofText_encode, ← @readPairs_eq_ok_iff 0, decode]
  by_cases hodd : (Bytes.ofText text).length % 2 = 1
  · simp [hodd]
  · have heven : (Bytes.ofText text).length % 2 = 0 := by omega
    simp [heven]

/-- The text of a byte string stands for it. -/
theorem decode_encode (bytes : Bytes) : decode (encode bytes) = .ok bytes :=
  decode_eq_ok_iff.mpr (lower_ofText_encode bytes)

end Hex

end VerifiableMix
