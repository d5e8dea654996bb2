import VerifiableMix.Proofs.Bytes.Hex

/-!
# The digits of a hexadecimal text

A text stands for a byte string when its characters are an even number of digits of
either case.  Reading looks at the UTF-8 bytes, and of the characters outside ASCII no
byte is the code of a digit.  So bytes and characters agree on which texts are read, and
the byte that is reported when a text is not read is the first one that is no digit.

## Main results

* `decode_eq_ok_iff_map` — what is read is written again in lower case.
* `value_of_decode` — what is read has the number whose digits the text has.
* `decode_eq_error_iff` — which fault is reported of a text that is not read.
* `exists_decode_iff` — which texts are read.
-/

namespace VerifiableMix

/-- The UTF-8 bytes of a text are those of its characters. -/
theorem Bytes.ofText_eq (text : String) :
    ofText text = text.toList.flatMap String.utf8EncodeChar := by
  rw [← ofText_ofList, String.ofList_toList]

namespace Hex

open Failure

/-! ## Digits -/

/-- The sixteen digits in order, in lower case. -/
def digitChars : List Char :=
  ['0', '1', '2', '3', '4', '5', '6', '7', '8', '9', 'a', 'b', 'c', 'd', 'e', 'f']

/-- The character is a digit of either case. -/
def IsDigit (c : Char) : Prop :=
  c.toLower ∈ digitChars

instance (c : Char) : Decidable (IsDigit c) :=
  inferInstanceAs (Decidable (_ ∈ _))

/-- The number that a digit stands for. -/
def digitOf (c : Char) : Nat :=
  digitChars.idxOf c.toLower

/-- All characters of the text are digits. -/
def AllDigits (text : String) : Prop :=
  ∀ c ∈ text.toList, IsDigit c

instance (text : String) : Decidable (AllDigits text) :=
  List.decidableBAll IsDigit text.toList

/-- The number whose digits the characters are, the most significant first. -/
def value (text : String) : Nat :=
  text.toList.foldl (fun n c => 16 * n + digitOf c) 0

/-- The byte is the code of a digit. -/
def IsDigitCode (code : UInt8) : Prop :=
  IsDigit (Char.ofNat code.toNat)

instance (code : UInt8) : Decidable (IsDigitCode code) :=
  inferInstanceAs (Decidable (IsDigit _))

/-- A byte is read as a digit when it is the code of one. -/
theorem isSome_digitValue? (code : UInt8) : (digitValue? code).isSome ↔ IsDigitCode code := by
  have hall : ∀ k : Fin 256, (digitValue? (UInt8.ofNat k)).isSome ↔ IsDigit (Char.ofNat k) := by
    decide +kernel
  have hcode := hall ⟨code.toNat, code.toNat_lt⟩
  rwa [UInt8.ofNat_toNat] at hcode

/-- The codes of digits are in ASCII. -/
theorem IsDigitCode.toNat_lt {code : UInt8} (h : IsDigitCode code) : code.toNat < 128 := by
  have hall : ∀ k : Fin 256, IsDigit (Char.ofNat k) → k.val < 128 := by decide +kernel
  exact hall ⟨code.toNat, code.toNat_lt⟩ h

theorem digitOf_digitChar {n : Nat} (h : n < 16) : digitOf (Nat.digitChar n) = n := by
  have hall : ∀ k : Fin 16, digitOf (Nat.digitChar k) = k := by decide
  exact hall ⟨n, h⟩

/-! ## Characters and their bytes -/

/-- Outside ASCII a character has no other case here. -/
theorem toLower_of_le {c : Char} (hc : 128 ≤ c.toNat) : c.toLower = c := by
  have hle : ¬ c.val ≤ 'Z'.val := by
    rw [UInt32.le_iff_toNat_le]
    exact Nat.not_le.mpr (Nat.lt_of_lt_of_le (by decide) hc)
  exact dif_neg fun h => hle h.2

theorem toLower_toLower (c : Char) : c.toLower.toLower = c.toLower := by
  rcases Nat.lt_or_ge c.toNat 128 with hc | hc
  · have hall : ∀ k : Fin 128, (Char.ofNat k).toLower.toLower = (Char.ofNat k).toLower := by
      decide +kernel
    have hchar := hall ⟨c.toNat, hc⟩
    rwa [Char.ofNat_toNat] at hchar
  · rw [toLower_of_le hc, toLower_of_le hc]

theorem digitOf_toLower (c : Char) : digitOf c.toLower = digitOf c := by
  rw [digitOf, digitOf, toLower_toLower]

theorem IsDigit.toNat_lt {c : Char} (h : IsDigit c) : c.toNat < 128 := by
  have hall : digitChars.all (fun d => d.toNat < 128) = true := by decide
  by_contra hc
  have hc : 128 ≤ c.toNat := Nat.not_lt.mp hc
  rw [IsDigit, toLower_of_le hc] at h
  exact absurd (of_decide_eq_true (List.all_eq_true.mp hall c h)) (Nat.not_lt.mpr hc)

/-- A character outside ASCII has no byte of ASCII. -/
theorem le_of_mem_utf8EncodeChar {c : Char} (hc : 128 ≤ c.toNat) {code : UInt8}
    (h : code ∈ String.utf8EncodeChar c) : 128 ≤ code.toNat := by
  have hne : ¬ c.val.toNat ≤ 127 := Nat.not_le.mpr hc
  simp only [String.utf8EncodeChar, if_neg hne] at h
  split at h
  · simp only [List.mem_cons, List.not_mem_nil, or_false] at h
    rcases h with rfl | rfl <;> rw [UInt8.toNat_ofNat'] <;> omega
  · split at h
    · simp only [List.mem_cons, List.not_mem_nil, or_false] at h
      rcases h with rfl | rfl | rfl <;> rw [UInt8.toNat_ofNat'] <;> omega
    · simp only [List.mem_cons, List.not_mem_nil, or_false] at h
      rcases h with rfl | rfl | rfl | rfl <;> rw [UInt8.toNat_ofNat'] <;> omega

theorem utf8EncodeChar_of_lt {c : Char} (hc : c.toNat < 128) :
    String.utf8EncodeChar c = [UInt8.ofNat c.toNat] :=
  if_pos (Nat.le_of_lt_succ hc)

/-- The bytes of a character in lower case are its bytes in lower case. -/
theorem utf8EncodeChar_toLower (c : Char) :
    String.utf8EncodeChar c.toLower = (String.utf8EncodeChar c).map lower := by
  rcases Nat.lt_or_ge c.toNat 128 with hc | hc
  · have hall : ∀ k : Fin 128, String.utf8EncodeChar (Char.ofNat k).toLower =
        (String.utf8EncodeChar (Char.ofNat k)).map lower := by decide +kernel
    have hchar := hall ⟨c.toNat, hc⟩
    rwa [Char.ofNat_toNat] at hchar
  · have hid : ∀ code ∈ String.utf8EncodeChar c, lower code = code := by
      intro code hcode
      have hle := le_of_mem_utf8EncodeChar hc hcode
      have hnot : ¬(65 ≤ code ∧ code ≤ 90) := by
        rintro ⟨_, hupper⟩
        rw [UInt8.le_iff_toNat_le] at hupper
        exact absurd (Nat.le_trans hle hupper) (by decide)
      rw [lower, if_neg hnot]
    rw [toLower_of_le hc, List.map_congr_left hid, List.map_id']

/-- A character is a digit when its bytes are codes of digits. -/
theorem forall_isDigitCode_iff (c : Char) :
    (∀ code ∈ String.utf8EncodeChar c, IsDigitCode code) ↔ IsDigit c := by
  rcases Nat.lt_or_ge c.toNat 128 with hc | hc
  · have hcode : (UInt8.ofNat c.toNat).toNat = c.toNat := by
      rw [UInt8.toNat_ofNat']
      omega
    rw [utf8EncodeChar_of_lt hc, List.forall_mem_singleton, IsDigitCode, hcode, Char.ofNat_toNat]
  · refine iff_of_false (fun h => ?_) fun h => Nat.not_lt.mpr hc h.toNat_lt
    have hmem := List.head_mem (String.utf8EncodeChar_ne_nil (c := c))
    exact Nat.not_lt.mpr (le_of_mem_utf8EncodeChar hc hmem) (h _ hmem).toNat_lt

/-! ## Texts and their bytes -/

theorem ofText_map_toLower (text : String) :
    Bytes.ofText (text.map Char.toLower) = (Bytes.ofText text).map lower := by
  rw [Bytes.ofText_eq, Bytes.ofText_eq, String.toList_map, List.flatMap_map, List.map_flatMap]
  congr 1
  funext c
  exact utf8EncodeChar_toLower c

/-- The bytes are codes of digits when the characters are digits. -/
theorem forall_isDigitCode_ofText_iff (text : String) :
    (∀ code ∈ Bytes.ofText text, IsDigitCode code) ↔ AllDigits text := by
  rw [Bytes.ofText_eq, AllDigits]
  simp only [← forall_isDigitCode_iff, List.mem_flatMap]
  exact ⟨fun h c hc code hcode => h code ⟨c, hc, hcode⟩,
    fun h code ⟨c, hc, hcode⟩ => h c hc code hcode⟩

/-- A text of digits has one byte for each. -/
theorem AllDigits.length_ofText {text : String} (h : AllDigits text) :
    (Bytes.ofText text).length = text.length := by
  have hone : ∀ c ∈ text.toList, String.utf8EncodeChar c = [UInt8.ofNat c.toNat] :=
    fun c hc => utf8EncodeChar_of_lt (h c hc).toNat_lt
  rw [Bytes.ofText_eq, List.flatMap_congr hone, ← List.map_eq_flatMap, List.length_map,
    String.length_toList]

/-- The bytes in lower case spell the text in lower case. -/
theorem map_lower_ofText_eq_iff {text spelled : String} :
    (Bytes.ofText text).map lower = Bytes.ofText spelled ↔ text.map Char.toLower = spelled := by
  rw [← ofText_map_toLower, Bytes.ofText_injective.eq_iff]

/-- A text is read as the bytes whose text it is in lower case. -/
theorem decode_eq_ok_iff_map {text : String} {bytes : Bytes} :
    decode text = .ok bytes ↔ text.map Char.toLower = encode bytes := by
  rw [decode_eq_ok_iff, map_lower_ofText_eq_iff]

theorem length_encode (bytes : Bytes) : (encode bytes).length = 2 * bytes.length := by
  simp [encode, digits, List.length_flatMap, Nat.mul_comm]

/-- Two digits are read for each byte. -/
theorem length_of_decode {text : String} {bytes : Bytes} (h : decode text = .ok bytes) :
    text.length = 2 * bytes.length := by
  rw [← length_encode, ← decode_eq_ok_iff_map.mp h, String.length_map]

/-! ## Values -/

theorem value_map_toLower (text : String) : value (text.map Char.toLower) = value text := by
  simp only [value, String.toList_map, List.foldl_map, digitOf_toLower]

/-- The digits of a byte string are those of its number. -/
theorem value_encode (bytes : Bytes) : value (encode bytes) = Bytes.toNatBE bytes := by
  have hbyte : ∀ (n : Nat) (b : UInt8),
      (digits b).foldl (fun n c => 16 * n + digitOf c) n = 256 * n + b.toNat := by
    intro n b
    simp only [digits, List.foldl_cons, List.foldl_nil, digitOf_digitChar (high_lt b),
      digitOf_digitChar (low_lt b)]
    omega
  simp only [value, encode, String.toList_ofList, List.foldl_flatMap, hbyte, Bytes.toNatBE]

/-- A text is read as the bytes of the number whose digits it has. -/
theorem value_of_decode {text : String} {bytes : Bytes} (h : decode text = .ok bytes) :
    value text = Bytes.toNatBE bytes := by
  rw [← value_encode, ← decode_eq_ok_iff_map.mp h, value_map_toLower]

/-! ## Faults -/

/-- The byte stands at the position, is no code of a digit, and all before it are. -/
structure FirstInvalid (codes : List UInt8) (byte : UInt8) (position : Nat) : Prop where
  found : codes[position]? = some byte
  invalid : ¬IsDigitCode byte
  earlier : ∀ code ∈ codes.take position, IsDigitCode code

theorem not_firstInvalid_nil (byte : UInt8) (position : Nat) : ¬FirstInvalid [] byte position :=
  fun h => by simpa using h.found

variable {code byte : UInt8} {rest : List UInt8} {position : Nat}

theorem firstInvalid_cons_of_isDigitCode (hcode : IsDigitCode code) :
    FirstInvalid (code :: rest) byte position ↔
      ∃ previous, position = previous + 1 ∧ FirstInvalid rest byte previous := by
  constructor
  · rintro ⟨hfound, hinvalid, hearlier⟩
    cases position with
    | zero =>
        obtain rfl : code = byte := by simpa using hfound
        exact absurd hcode hinvalid
    | succ previous =>
        rw [List.take_succ_cons, List.forall_mem_cons] at hearlier
        exact ⟨previous, rfl, hfound, hinvalid, hearlier.2⟩
  · rintro ⟨previous, rfl, hfound, hinvalid, hearlier⟩
    exact ⟨hfound, hinvalid, List.forall_mem_cons.mpr ⟨hcode, hearlier⟩⟩

theorem firstInvalid_cons_of_not_isDigitCode (hcode : ¬IsDigitCode code) :
    FirstInvalid (code :: rest) byte position ↔ byte = code ∧ position = 0 := by
  constructor
  · rintro ⟨hfound, _, hearlier⟩
    cases position with
    | zero =>
        obtain rfl : code = byte := by simpa using hfound
        exact ⟨rfl, rfl⟩
    | succ previous =>
        rw [List.take_succ_cons, List.forall_mem_cons] at hearlier
        exact absurd hearlier.1 hcode
  · rintro ⟨rfl, rfl⟩
    exact ⟨rfl, hcode, by simp⟩

/-- There is a first invalid byte unless all are codes of digits. -/
theorem exists_firstInvalid_iff (codes : List UInt8) :
    (∃ byte position, FirstInvalid codes byte position) ↔ ¬∀ code ∈ codes, IsDigitCode code := by
  induction codes with
  | nil => simp [not_firstInvalid_nil]
  | cons code rest ih =>
      rw [List.forall_mem_cons]
      by_cases hcode : IsDigitCode code
      · simp only [firstInvalid_cons_of_isDigitCode hcode, hcode, true_and, ← ih]
        exact ⟨fun ⟨byte, _, previous, _, h⟩ => ⟨byte, previous, h⟩,
          fun ⟨byte, previous, h⟩ => ⟨byte, previous + 1, previous, rfl, h⟩⟩
      · simp [firstInvalid_cons_of_not_isDigitCode hcode, hcode]

theorem readDigit_of_isDigitCode (position : Nat) (hcode : IsDigitCode code) :
    ∃ n, readDigit position code = .ok n := by
  obtain ⟨n, hn⟩ := Option.isSome_iff_exists.mp ((isSome_digitValue? code).mpr hcode)
  exact ⟨n, readDigit_eq_ok_iff.mpr hn⟩

theorem readDigit_of_not_isDigitCode (position : Nat) (hcode : ¬IsDigitCode code) :
    readDigit position code = .error (.invalidDigit code position) := by
  have hnone : digitValue? code = none :=
    Option.not_isSome_iff_eq_none.mp fun h => hcode ((isSome_digitValue? code).mp h)
  rw [readDigit, hnone]

/-- Pairs of digits are refused for the first byte that is no code of a digit. -/
theorem readPairs_eq_error_iff {start : Nat} {text : List UInt8} {fault : HexFault}
    (heven : text.length % 2 = 0) :
    readPairs start text = .error fault ↔
      ∃ byte position, FirstInvalid text byte position ∧
        fault = .invalidDigit byte (start + position) := by
  -- Reading goes on two places further, so the positions in the rest are counted from there.
  fun_induction readPairs start text with
  | case1 start high low rest ih =>
      have hrest : rest.length % 2 = 0 := by
        simp only [List.length_cons] at heven
        omega
      by_cases hhigh : IsDigitCode high
      · obtain ⟨h, hh⟩ := readDigit_of_isDigitCode start hhigh
        simp only [hh, ok_bind, firstInvalid_cons_of_isDigitCode hhigh]
        by_cases hlow : IsDigitCode low
        · obtain ⟨l, hl⟩ := readDigit_of_isDigitCode (start + 1) hlow
          simp only [hl, ok_bind, firstInvalid_cons_of_isDigitCode hlow, bind_eq_error_iff,
            pure_eq_ok, reduceCtorEq, and_false, exists_false, or_false, ih hrest]
          constructor
          · rintro ⟨byte, position, hfirst, rfl⟩
            refine ⟨byte, position + 1 + 1, ⟨_, rfl, _, rfl, hfirst⟩, ?_⟩
            rw [Nat.add_assoc start 2, Nat.add_comm 2]
          · rintro ⟨byte, _, ⟨_, rfl, position, rfl, hfirst⟩, rfl⟩
            refine ⟨byte, position, hfirst, ?_⟩
            rw [Nat.add_assoc start 2, Nat.add_comm 2]
        · rw [readDigit_of_not_isDigitCode _ hlow]
          simp [firstInvalid_cons_of_not_isDigitCode hlow, eq_comm]
      · rw [readDigit_of_not_isDigitCode _ hhigh]
        simp [firstInvalid_cons_of_not_isDigitCode hhigh, eq_comm]
  | case2 text start hshort =>
      have hnil : text = [] := by
        rcases text with _ | ⟨high, _ | ⟨low, rest⟩⟩
        · rfl
        · cases heven
        · exact (hshort high low rest rfl).elim
      simp [hnil, not_firstInvalid_nil]

/-- What is said of a text that stands for no byte string: an odd number of bytes before
anything else, and then the first byte that is no code of a digit. -/
def Refused (text : String) : HexFault → Prop
  | .oddLength => (Bytes.ofText text).length % 2 = 1
  | .invalidDigit byte position =>
    (Bytes.ofText text).length % 2 = 0 ∧ FirstInvalid (Bytes.ofText text) byte position

theorem decode_eq_error_iff {text : String} {fault : HexFault} :
    decode text = .error fault ↔ Refused text fault := by
  rw [decode]
  by_cases hodd : (Bytes.ofText text).length % 2 = 1
  · cases fault <;> simp [Refused, hodd]
  · have heven : (Bytes.ofText text).length % 2 = 0 := by omega
    simp only [hodd, if_false, readPairs_eq_error_iff heven, Nat.zero_add]
    cases fault <;> simp [Refused, heven]

-- A character outside ASCII counts with all its bytes, and its first one is reported.
example : decode "aé" = .error .oddLength ∧ decode "a€" = .error (.invalidDigit 0xe2 1) := by
  decide +kernel

/-- A text is refused unless it is an even number of digits. -/
theorem exists_refused_iff (text : String) :
    (∃ fault, Refused text fault) ↔ ¬(AllDigits text ∧ text.length % 2 = 0) := by
  constructor
  · rintro ⟨fault, hrefused⟩ ⟨hall, heven⟩
    rw [← hall.length_ofText] at heven
    cases fault with
    | oddLength => exact absurd hrefused (by simp [Refused, heven])
    | invalidDigit byte position =>
        exact (exists_firstInvalid_iff _).mp ⟨byte, position, hrefused.2⟩
          ((forall_isDigitCode_ofText_iff text).mpr hall)
  · intro hnot
    by_cases hodd : (Bytes.ofText text).length % 2 = 1
    · exact ⟨.oddLength, hodd⟩
    · have heven : (Bytes.ofText text).length % 2 = 0 := Nat.mod_two_ne_one.mp hodd
      have hsome : ¬∀ code ∈ Bytes.ofText text, IsDigitCode code := fun hall => by
        have hdigits := (forall_isDigitCode_ofText_iff text).mp hall
        exact hnot ⟨hdigits, by rw [← hdigits.length_ofText, heven]⟩
      obtain ⟨byte, position, hfirst⟩ := (exists_firstInvalid_iff _).mpr hsome
      exact ⟨.invalidDigit byte position, heven, hfirst⟩

/-- A text is read when it is an even number of digits. -/
theorem exists_decode_iff (text : String) :
    (∃ bytes, decode text = .ok bytes) ↔ AllDigits text ∧ text.length % 2 = 0 := by
  rw [← not_iff_not, ← exists_refused_iff]
  simp only [← decode_eq_error_iff]
  cases decode text <;> simp

end Hex

end VerifiableMix
