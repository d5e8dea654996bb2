import VerifiableMix.CommandLine
import VerifiableMix.Proofs.Ciphertext.Row
import VerifiableMix.Proofs.Proof.Binary

/-!
# Row sets in binary form

A row set that was read from a file is a spelling of its parts, and its key and its rows
were checked.  Members all have the width of the group, so whether a row set can be
written does not depend on its key or on its entries: the number of rows, their width and
the text of one element have to fit eight bytes each.  A row set that can be written is
read back.

## Main results

* `CommandLine.readRowSet_eq_ok_iff` — what is read, from which bytes.
* `RowSet.fits_parts_iff` — which row sets of members can be written.
* `CommandLine.readRowSet_rowSet` — these are read back.
* `CommandLine.exists_rowSet_of_readRowSet` — what was read is such a row set.
-/

namespace VerifiableMix

open VerifiableMix.Group VerifiableMix.Failure Binary

variable {G : Group} {n w : Nat}

namespace Binary.Part

/-- The text of a member is twice as long as the width of the group. -/
theorem announced_element (x : Member G) : (element x.element).announced = 2 * G.width := by
  rw [announced, Element.toHex, Hex.length_ofText_encode,
    x.isMember.fitsWidth.length_toBytes, x.isMember.width_eq]

theorem fits_element_iff (x : Member G) :
    (element x.element).Fits ↔ 2 * G.width < 2 ^ 64 := by
  constructor
  · intro h
    rw [← announced_element x]
    exact h.announced_lt
  · intro h
    refine ⟨(announced_element x).symm ▸ h, fun y hy => ?_⟩
    cases hy
    exact x.isMember.fitsWidth

end Binary.Part

namespace RowSet

/-- The parts of a row set. -/
def parts (set : RowSet) : List Part :=
  [.element set.publicKey.key] ++ listParts Row.parts set.rows

/-- A row set is written part by part. -/
theorem toBytes_eq (set : RowSet) : set.toBytes = set.parts.flatMap Part.put := by
  rw [toBytes, putList_eq putRow_eq, parts, List.flatMap_append, List.flatMap_singleton]
  rfl

theorem reads_rowSet : Reads getRowSet (fun _ => True) parts := by
  have hread : Reads getRowSet (fun _ => True) _ :=
    .bind (fun set => set.publicKey.key) reads_element fun key =>
    .bind RowSet.rows (reads_list reads_row) fun rows =>
    .result fun set => by
      obtain ⟨⟨key'⟩, rows'⟩ := set
      simp
  exact hread.congr (fun _ => Iff.rfl) fun set _ => by simp [parts]

theorem validate_eq_ok_iff {set : RowSet} :
    set.validate G = .ok () ↔
      G.checkElement set.publicKey.key = .ok () ∧ ∀ row ∈ set.rows, row.validate G = .ok () := by
  rw [validate, bind_eq_ok_iff, forM_eq_ok_iff]
  exact ⟨fun ⟨_, hkey, hrows⟩ => ⟨hkey, hrows⟩, fun ⟨hkey, hrows⟩ => ⟨(), hkey, hrows⟩⟩

/-! ## Which row sets can be written -/

/-- Lengths of eight bytes are enough for `n` rows of a width. -/
structure FitsFile (G : Group) (n w : Nat) : Prop where
  text_lt : 2 * G.width < 2 ^ 64
  rows_lt : n < 2 ^ 64
  width_lt : w < 2 ^ 64

/-- The parts are the key, the number of rows, the width of each row, and the components of
the entries. -/
theorem mem_parts {set : RowSet} {part : Part} :
    part ∈ set.parts ↔ part = .element set.publicKey.key ∨ part = .length set.rows.length ∨
      ∃ row ∈ set.rows, part = .length row.length ∨
        ∃ x ∈ row, part = .element x.pad ∨ part = .element x.data := by
  simp [parts, listParts, Row.parts]

/-- The parts of a row set of members are its dimensions and members. -/
theorem eq_of_mem_parts {pk : Member G} {R : Fin n → Fin w → Cipher G} {part : Part}
    (h : part ∈ parts ⟨⟨pk.element⟩, rowSet R⟩) :
    part = .length n ∨ part = .length w ∨ ∃ x : Member G, part = .element x.element := by
  rcases mem_parts.mp h with rfl | rfl | ⟨xs, hxs, hpart⟩
  · exact .inr (.inr ⟨pk, rfl⟩)
  · exact .inl (congrArg Part.length (length_rowSet R))
  · obtain ⟨i, rfl⟩ := List.mem_ofFn.mp hxs
    rcases hpart with rfl | ⟨x, hx, hpart⟩
    · exact .inr (.inl (congrArg Part.length (length_row (R i))))
    · obtain ⟨k, rfl⟩ := List.mem_ofFn.mp hx
      rcases hpart with rfl | rfl
      · exact .inr (.inr ⟨(R i k).1, rfl⟩)
      · exact .inr (.inr ⟨(R i k).2, rfl⟩)

/-- Whether a row set of members can be written depends on its dimensions alone. -/
theorem fits_parts_iff (pk : Member G) (R : Fin (n + 1) → Fin w → Cipher G) :
    (∀ part ∈ parts ⟨⟨pk.element⟩, rowSet R⟩, part.Fits) ↔ FitsFile G (n + 1) w := by
  constructor
  · intro h
    have hkey := h (.element pk.element) (mem_parts.mpr (.inl rfl))
    have hcount := h (.length (rowSet R).length) (mem_parts.mpr (.inr (.inl rfl)))
    -- there is a first row, and it announces its width
    have hwidth := h (.length (row (R 0)).length)
      (mem_parts.mpr (.inr (.inr ⟨_, List.mem_ofFn.mpr ⟨0, rfl⟩, .inl rfl⟩)))
    rw [length_rowSet] at hcount
    rw [length_row] at hwidth
    exact ⟨(Part.fits_element_iff pk).mp hkey, Part.fits_length_iff.mp hcount,
      Part.fits_length_iff.mp hwidth⟩
  · rintro ⟨htext, hcount, hwidth⟩ part hpart
    rcases eq_of_mem_parts hpart with rfl | rfl | ⟨x, rfl⟩
    · exact Part.fits_length_iff.mpr hcount
    · exact Part.fits_length_iff.mpr hwidth
    · exact (Part.fits_element_iff x).mpr htext

/-- The row set at the front of a byte string is the one whose parts are spelled there. -/
theorem ofBytes?_eq_some_iff {bytes : Bytes} {set : RowSet} :
    ofBytes? bytes = some set ↔
      ∃ spelled rest, Spelling set.parts spelled ∧ bytes = spelled ++ rest := by
  rw [ofBytes?, decode, Option.map_eq_some_iff]
  constructor
  · rintro ⟨⟨_, rest⟩, hrun, rfl⟩
    obtain ⟨_, spelled, hspelled, rfl⟩ := reads_rowSet.run_iff.mp hrun
    exact ⟨spelled, rest, hspelled, rfl⟩
  · rintro ⟨spelled, rest, hspelled, rfl⟩
    exact ⟨(set, rest), reads_rowSet.run_append trivial hspelled rest, rfl⟩

end RowSet

namespace CommandLine

variable {path : String} {bytes : Bytes} {set : RowSet}

/-- A row set is read from its spellings, whatever follows them, if it passes the checks. -/
theorem readRowSet_eq_ok_iff :
    readRowSet G path bytes = .ok set ↔ set.validate G = .ok () ∧
      ∃ spelled rest, Spelling set.parts spelled ∧ bytes = spelled ++ rest := by
  rw [← RowSet.ofBytes?_eq_some_iff, readRowSet]
  constructor
  · intro h
    cases hread : RowSet.ofBytes? bytes with
    | none =>
        rw [hread] at h
        cases h
    | some read =>
        rw [hread] at h
        obtain ⟨_, hvalidate, hset⟩ := bind_eq_ok_iff.mp h
        obtain rfl : read = set := Except.ok.inj hset
        exact ⟨mapError_eq_ok_iff.mp hvalidate, rfl⟩
  · rintro ⟨hvalidate, hread⟩
    rw [hread]
    dsimp only
    rw [hvalidate]
    rfl

/-- Where a row set was read from makes no difference. -/
theorem readRowSet_of_path (h : readRowSet G path bytes = .ok set) (other : String) :
    readRowSet G other bytes = .ok set :=
  readRowSet_eq_ok_iff.mpr (readRowSet_eq_ok_iff.mp h)

/-- A row set of members that can be written is read back. -/
theorem readRowSet_rowSet (pk : Member G) (R : Fin (n + 1) → Fin w → Cipher G)
    (hfits : RowSet.FitsFile G (n + 1) w) (path : String) :
    readRowSet G path (RowSet.toBytes ⟨⟨pk.element⟩, rowSet R⟩) =
      .ok ⟨⟨pk.element⟩, rowSet R⟩ := by
  have hvalidate : RowSet.validate G ⟨⟨pk.element⟩, rowSet R⟩ = .ok () :=
    RowSet.validate_eq_ok_iff.mpr
      ⟨checkElement_eq_ok_iff.mpr pk.isMember, validate_of_mem_rowSet R⟩
  refine readRowSet_eq_ok_iff.mpr ⟨hvalidate, _, [], ?_, (List.append_nil _).symm⟩
  rw [RowSet.toBytes_eq]
  exact spelling_put ((RowSet.fits_parts_iff pk R).mpr hfits)

/-- A row set that was read and has a width is a family of members that can be written. -/
theorem exists_rowSet_of_readRowSet (h : readRowSet G path bytes = .ok set)
    (hwidth : rowWidth set.rows = .ok w) :
    ∃ (n : Nat) (pk : Member G) (R : Fin (n + 1) → Fin w → Cipher G),
      0 < w ∧ RowSet.FitsFile G (n + 1) w ∧ set = ⟨⟨pk.element⟩, rowSet R⟩ := by
  obtain ⟨hvalidate, spelled, rest, hspelled, _⟩ := readRowSet_eq_ok_iff.mp h
  obtain ⟨hkey, hrows⟩ := RowSet.validate_eq_ok_iff.mp hvalidate
  obtain ⟨n, R, hw, hR⟩ := exists_rowSet_of_rowWidth hwidth hrows
  obtain ⟨pk, hpk⟩ := exists_member hkey
  obtain ⟨⟨key⟩, rows⟩ := set
  obtain rfl : key = pk.element := hpk
  obtain rfl : rows = rowSet R := hR
  refine ⟨n, pk, R, hw, (RowSet.fits_parts_iff pk R).mp (hspelled.fits fun x hx => ?_), rfl⟩
  rcases RowSet.eq_of_mem_parts hx with hx | hx | ⟨y, hx⟩
  · cases hx
  · cases hx
  · cases hx
    exact y.isMember.fitsWidth.pos

end CommandLine

end VerifiableMix
