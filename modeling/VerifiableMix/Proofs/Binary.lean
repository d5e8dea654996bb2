import VerifiableMix.Binary
import VerifiableMix.Proofs.Text

/-!
# The binary form delimits itself

A binary form is a sequence of parts: lengths, texts, and the texts of scalars and
elements.  A part can be spelled in several ways, since digits are read in either case,
but a spelling tells where it ends.  `Reads get domain parts` says what a reader does:
it takes from the front exactly the spellings of the parts of a value, and gives that
value.  Readers that are run one after the other read the parts one after the other, so
the statement about a reader follows its definition.

## Main results

* `Reads.bind`, `reads_list` — how readers are put together.
* `Reads.run_append` — what follows a value is left.
* `Reads.run_of_isPrefix` — a value that is cut off is not read.
* `Part.Fits.spells_put` — a part that fits is spelled as it is written.
* `Part.Spells.sameUpToCase` — its spellings differ from that in the case of digits.
* `Part.Spells.fits` — what was spelled can be written.
-/

namespace VerifiableMix.Binary

variable {α β : Type}

/-! ## Parts -/

/-- A part of a binary form. -/
inductive Part where
  | length (n : Nat)
  | text (content : String)
  | scalar (x : Scalar)
  | element (x : Element)

/-- The bytes spell a text. -/
structure SpellsText (content : String) (bytes : Bytes) : Prop where
  length_lt : (Bytes.ofText content).length < 2 ^ 64
  eq : bytes = putText content

namespace Part

/-- How a part is written. -/
def put : Part → Bytes
  | length n => putLength n
  | text content => putText content
  | scalar x => putScalar x
  | element x => putElement x

/-- The bytes spell a part: they are read as that part. -/
def Spells : Part → Bytes → Prop
  | length n, bytes => n < 2 ^ 64 ∧ bytes = putLength n
  | text content, bytes => SpellsText content bytes
  | scalar x, bytes => ∃ content, SpellsText content bytes ∧ Scalar.ofHex content = .ok x
  | element x, bytes => ∃ content, SpellsText content bytes ∧ Element.ofHex content = .ok x

end Part

/-- The bytes spell parts, one after the other. -/
def Spelling (parts : List Part) (bytes : Bytes) : Prop :=
  ∃ pieces, List.Forall₂ Part.Spells parts pieces ∧ bytes = pieces.flatten

theorem spelling_nil_iff {bytes : Bytes} : Spelling [] bytes ↔ bytes = [] := by
  simp [Spelling]

theorem spelling_singleton_iff {part : Part} {bytes : Bytes} :
    Spelling [part] bytes ↔ part.Spells bytes := by
  simp [Spelling, List.forall₂_cons_left_iff]

theorem spelling_append_iff {parts more : List Part} {bytes : Bytes} :
    Spelling (parts ++ more) bytes ↔
      ∃ x y, Spelling parts x ∧ Spelling more y ∧ bytes = x ++ y := by
  constructor
  · rintro ⟨pieces, hpieces, rfl⟩
    have hparts := List.forall₂_take parts.length hpieces
    have hmore := List.forall₂_drop parts.length hpieces
    rw [List.take_left] at hparts
    rw [List.drop_left] at hmore
    refine ⟨_, _, ⟨_, hparts, rfl⟩, ⟨_, hmore, rfl⟩, ?_⟩
    rw [← List.flatten_append, List.take_append_drop]
  · rintro ⟨_, _, ⟨pieces, hparts, rfl⟩, ⟨pieces', hmore, rfl⟩, rfl⟩
    exact ⟨pieces ++ pieces', List.rel_append hparts hmore, List.flatten_append.symm⟩

/-! ## Running a reader -/

theorem run_bind_eq_some_iff {get : Reader α} {next : α → Reader β} {input rest : Bytes} {b : β} :
    (get >>= next).run input = some (b, rest) ↔
      ∃ a mid, get.run input = some (a, mid) ∧ (next a).run mid = some (b, rest) := by
  rw [StateT.run_bind, Option.bind_eq_bind, Option.bind_eq_some_iff]
  simp only [Prod.exists]

theorem run_pure_eq_some_iff {a b : α} {input rest : Bytes} :
    (pure a : Reader α).run input = some (b, rest) ↔ b = a ∧ input = rest := by
  simp [eq_comm]

theorem run_lift_eq_some_iff {x : Option α} {a : α} {input rest : Bytes} :
    (StateT.lift x : Reader α).run input = some (a, rest) ↔ x = some a ∧ input = rest := by
  cases x <;> simp [StateT.run, StateT.lift]

theorem splitExactly_eq_some_iff {n : Nat} {input taken rest : Bytes} :
    splitExactly n input = some (taken, rest) ↔ input = taken ++ rest ∧ taken.length = n := by
  induction n generalizing input taken with
  | zero =>
      rw [splitExactly, List.length_eq_zero_iff]
      constructor
      · rintro ⟨⟩
        exact ⟨rfl, rfl⟩
      · rintro ⟨rfl, rfl⟩
        rfl
  | succ n ih =>
      cases input with
      | nil =>
          refine iff_of_false (fun h => by cases h) ?_
          rintro ⟨hnil, hlength⟩
          rw [(List.append_eq_nil_iff.mp hnil.symm).1] at hlength
          cases hlength
      | cons b input =>
          rw [splitExactly, Option.map_eq_some_iff]
          constructor
          · rintro ⟨⟨taken, rest⟩, hsplit, ⟨⟩⟩
            obtain ⟨rfl, hlength⟩ := ih.mp hsplit
            exact ⟨rfl, congrArg (· + 1) hlength⟩
          · rintro ⟨hinput, hlength⟩
            cases taken with
            | nil => cases hlength
            | cons c taken =>
                obtain ⟨rfl, hrest⟩ := List.cons.inj hinput
                exact ⟨(taken, rest), ih.mpr ⟨hrest, Nat.succ.inj hlength⟩, rfl⟩

theorem run_getBytes_eq_some_iff {n : Nat} {input taken rest : Bytes} :
    (getBytes n).run input = some (taken, rest) ↔ input = taken ++ rest ∧ taken.length = n :=
  splitExactly_eq_some_iff

/-! ## What a reader reads -/

/-- The reader takes from the front the spellings of the parts of a value in its domain,
and gives the value. -/
structure Reads (get : Reader α) (domain : α → Prop) (parts : α → List Part) : Prop where
  run_iff : ∀ {input rest : Bytes} {a : α}, get.run input = some (a, rest) ↔
    domain a ∧ ∃ bytes, Spelling (parts a) bytes ∧ input = bytes ++ rest

namespace Reads

variable {get : Reader α} {next : α → Reader β} {domain : β → Prop} {parts : α → List Part}
  {tail : β → List Part}

/-- A result without any parts. -/
theorem result {b : β} (hdomain : ∀ b', domain b' ↔ b' = b) :
    Reads (pure b) domain fun _ => [] where
  run_iff := by
    intro input rest b'
    rw [run_pure_eq_some_iff, hdomain]
    simp [spelling_nil_iff]

/-- Readers one after the other, when the result shows what the first one read.  The
domain of the second says that it does, besides what was already said about the result. -/
theorem bind (view : β → α) (hget : Reads get (fun _ => True) parts)
    (hnext : ∀ a, Reads (next a) (fun b => domain b ∧ view b = a) tail) :
    Reads (get >>= next) domain fun b => parts (view b) ++ tail b where
  run_iff := by
    intro input rest b
    rw [run_bind_eq_some_iff]
    constructor
    · rintro ⟨a, mid, hfirst, hsecond⟩
      obtain ⟨_, x, hx, rfl⟩ := hget.run_iff.mp hfirst
      obtain ⟨⟨hdomain, rfl⟩, y, hy, rfl⟩ := (hnext a).run_iff.mp hsecond
      exact ⟨hdomain, x ++ y, spelling_append_iff.mpr ⟨x, y, hx, hy, rfl⟩,
        (List.append_assoc x y rest).symm⟩
    · rintro ⟨hdomain, bytes, hspelling, rfl⟩
      obtain ⟨x, y, hx, hy, rfl⟩ := spelling_append_iff.mp hspelling
      refine ⟨view b, y ++ rest, hget.run_iff.mpr ⟨trivial, x, hx, List.append_assoc x y rest⟩, ?_⟩
      exact (hnext (view b)).run_iff.mpr ⟨⟨hdomain, rfl⟩, y, hy, rfl⟩

/-- The parts and the domain in another form. -/
theorem congr {get : Reader α} {domain domain' : α → Prop} {parts parts' : α → List Part}
    (h : Reads get domain parts) (hdomain : ∀ a, domain a ↔ domain' a)
    (hparts : ∀ a, domain a → parts a = parts' a) : Reads get domain' parts' where
  run_iff := by
    intro input rest a
    rw [h.run_iff, ← hdomain]
    exact and_congr_right fun ha => by rw [hparts a ha]

end Reads

/-! ## Reading parts -/

/-- A length is read from its eight bytes. -/
theorem run_getLength_eq_some_iff {input rest : Bytes} {n : Nat} :
    getLength.run input = some (n, rest) ↔ n < 2 ^ 64 ∧ input = putLength n ++ rest := by
  have hwidth : (2 : Nat) ^ 64 = 256 ^ 8 := by decide
  rw [getLength, run_bind_eq_some_iff]
  simp only [run_getBytes_eq_some_iff, run_pure_eq_some_iff]
  constructor
  · rintro ⟨bytes, _, ⟨rfl, hlength⟩, rfl, rfl⟩
    refine ⟨?_, ?_⟩
    · rw [hwidth, ← hlength]
      exact Bytes.toNatLE_lt bytes
    · rw [putLength, ← hlength, Bytes.ofNatLE_toNatLE]
  · rintro ⟨hn, rfl⟩
    refine ⟨putLength n, rest, ⟨rfl, Bytes.length_ofNatLE 8 n⟩, ?_, rfl⟩
    rw [putLength, Bytes.toNatLE_ofNatLE, Nat.mod_eq_of_lt (hwidth ▸ hn)]

/-- A text is read from its length and its bytes. -/
theorem run_getText_eq_some_iff {input rest : Bytes} {content : String} :
    getText.run input = some (content, rest) ↔
      ∃ bytes, SpellsText content bytes ∧ input = bytes ++ rest := by
  rw [getText, run_bind_eq_some_iff]
  simp only [run_bind_eq_some_iff, run_getLength_eq_some_iff, run_getBytes_eq_some_iff,
    run_lift_eq_some_iff, Bytes.toText?_eq_some_iff]
  constructor
  · rintro ⟨_, _, ⟨hlength, rfl⟩, _, _, ⟨rfl, rfl⟩, rfl, rfl⟩
    exact ⟨putText content, ⟨hlength, rfl⟩, (List.append_assoc _ _ _).symm⟩
  · rintro ⟨_, ⟨hlength, rfl⟩, rfl⟩
    exact ⟨_, _, ⟨hlength, List.append_assoc _ _ _⟩, _, _, ⟨rfl, rfl⟩, rfl, rfl⟩

theorem reads_length : Reads getLength (fun _ => True) fun n => [.length n] where
  run_iff := by
    intro input rest n
    simp only [run_getLength_eq_some_iff, spelling_singleton_iff, Part.Spells, and_assoc,
      exists_and_left, exists_eq_left, true_and]

theorem reads_text : Reads getText (fun _ => True) fun content => [.text content] where
  run_iff := by
    intro input rest content
    simp only [run_getText_eq_some_iff, spelling_singleton_iff, Part.Spells, true_and]

/-- A value is read from a text that stands for it. -/
theorem reads_ofText {ofText : String → Except TextFault α} {part : α → Part}
    (hpart : ∀ x bytes, (part x).Spells bytes ↔
      ∃ content, SpellsText content bytes ∧ ofText content = .ok x) :
    Reads (do StateT.lift (ofText (← getText)).toOption) (fun _ => True) fun x => [part x] where
  run_iff := by
    intro input rest x
    have hoption : ∀ content, (ofText content).toOption = some x ↔ ofText content = .ok x := by
      intro content
      cases ofText content <;> simp [Except.toOption]
    rw [run_bind_eq_some_iff]
    simp only [run_getText_eq_some_iff, run_lift_eq_some_iff, spelling_singleton_iff, hpart,
      hoption, true_and]
    constructor
    · rintro ⟨content, _, ⟨bytes, hspells, rfl⟩, hread, rfl⟩
      exact ⟨bytes, ⟨content, hspells, hread⟩, rfl⟩
    · rintro ⟨bytes, ⟨content, hspells, hread⟩, rfl⟩
      exact ⟨content, rest, ⟨bytes, hspells, rfl⟩, hread, rfl⟩

theorem reads_scalar : Reads getScalar (fun _ => True) fun x => [.scalar x] :=
  reads_ofText fun _ _ => Iff.rfl

theorem reads_element : Reads getElement (fun _ => True) fun x => [.element x] :=
  reads_ofText fun _ _ => Iff.rfl

/-! ## Lists -/

/-- The parts of a list: its length, and the parts of its items. -/
def listParts (parts : α → List Part) (items : List α) : List Part :=
  .length items.length :: items.flatMap parts

/-- Items are read one after the other. -/
theorem reads_items {get : Reader α} {parts : α → List Part}
    (hget : Reads get (fun _ => True) parts) (n : Nat) :
    Reads (getItems get n) (fun items => items.length = n) fun items => items.flatMap parts := by
  induction n with
  | zero =>
      have hnil : Reads (pure []) (fun items : List α => items.length = 0) fun _ => [] :=
        Reads.result fun _ => List.length_eq_zero_iff
      exact hnil.congr (fun _ => Iff.rfl) fun items hitems => by
        rw [List.length_eq_zero_iff.mp hitems, List.flatMap_nil]
  | succ n ih =>
      refine ⟨fun {input rest items} => ?_⟩
      rw [getItems, run_bind_eq_some_iff]
      simp only [run_bind_eq_some_iff, run_pure_eq_some_iff, hget.run_iff, ih.run_iff, true_and]
      constructor
      · rintro ⟨item, _, ⟨x, hx, rfl⟩, items, _, ⟨hlength, y, hy, rfl⟩, rfl, rfl⟩
        refine ⟨congrArg (· + 1) hlength, x ++ y, ?_, (List.append_assoc _ _ _).symm⟩
        exact spelling_append_iff.mpr ⟨x, y, hx, hy, rfl⟩
      · rintro ⟨hlength, bytes, hspelling, rfl⟩
        cases items with
        | nil => cases hlength
        | cons item items =>
            obtain ⟨x, y, hx, hy, rfl⟩ := spelling_append_iff.mp hspelling
            exact ⟨item, y ++ rest, ⟨x, hx, List.append_assoc _ _ _⟩, items, rest,
              ⟨Nat.succ.inj hlength, y, hy, rfl⟩, rfl, rfl⟩

/-- A list is read when its items are. -/
theorem reads_list {get : Reader α} {parts : α → List Part}
    (hget : Reads get (fun _ => True) parts) :
    Reads (getList get) (fun _ => True) (listParts parts) := by
  have hitems : ∀ n, Reads (getItems get n) (fun items => True ∧ items.length = n)
      fun items => items.flatMap parts :=
    fun n => (reads_items hget n).congr (fun _ => ⟨fun h => ⟨trivial, h⟩, And.right⟩)
      fun _ _ => rfl
  exact reads_length.bind List.length hitems

/-! ## Where a value ends -/

namespace Reads

variable {get : Reader α} {domain : α → Prop} {parts : α → List Part} {a : α} {bytes : Bytes}

/-- What follows the spelling of a value is left. -/
theorem run_append (h : Reads get domain parts) (ha : domain a)
    (hspelling : Spelling (parts a) bytes) (rest : Bytes) :
    get.run (bytes ++ rest) = some (a, rest) :=
  h.run_iff.mpr ⟨ha, bytes, hspelling, rfl⟩

/-- A spelling that is cut off is not read: otherwise the whole would be read as the
same value and something would be left. -/
theorem run_of_isPrefix (h : Reads get domain parts) (ha : domain a)
    (hspelling : Spelling (parts a) bytes) {initial : Bytes} (hinitial : initial <+: bytes)
    (hne : initial ≠ bytes) : get.run initial = none := by
  obtain ⟨cut, rfl⟩ := hinitial
  cases hrun : get.run initial with
  | none => rfl
  | some result =>
      obtain ⟨hresult, read, hread, hsplit⟩ := h.run_iff.mp hrun
      have hwhole := h.run_append ha hspelling []
      have hcut := h.run_append hresult hread (result.2 ++ cut)
      rw [← List.append_assoc, ← hsplit, ← List.append_nil (initial ++ cut), hwhole] at hcut
      have hnone : [] = result.2 ++ cut := congrArg Prod.snd (Option.some.inj hcut)
      rw [(List.append_eq_nil_iff.mp hnone.symm).2, List.append_nil] at hne
      exact (hne rfl).elim

end Reads

/-! ## Parts as they are written -/

namespace Part

/-- The length that a part begins with. -/
def announced : Part → Nat
  | length n => n
  | text content => (Bytes.ofText content).length
  | scalar x => (Bytes.ofText x.toHex).length
  | element x => (Bytes.ofText x.toHex).length

/-- The length of a part fits eight bytes, and an element fits its width. -/
structure Fits (part : Part) : Prop where
  announced_lt : part.announced < 2 ^ 64
  fitsWidth : ∀ x, part = element x → x.FitsWidth

theorem fits_length_iff {n : Nat} : (length n).Fits ↔ n < 2 ^ 64 :=
  ⟨Fits.announced_lt, fun h => ⟨h, fun _ hx => by cases hx⟩⟩

/-- A part is spelled as it is written. -/
theorem Fits.spells_put {part : Part} (h : part.Fits) : part.Spells part.put := by
  cases part with
  | length n => exact ⟨h.announced_lt, rfl⟩
  | text content => exact ⟨h.announced_lt, rfl⟩
  | scalar x => exact ⟨x.toHex, ⟨h.announced_lt, rfl⟩, x.ofHex_toHex⟩
  | element x => exact ⟨x.toHex, ⟨h.announced_lt, rfl⟩, (h.fitsWidth x rfl).ofHex_toHex⟩

/-- The bytes are those of the part, but letters among the digits of a scalar or of an
element can be in upper case. -/
def SameUpToCase (part : Part) (bytes : Bytes) : Prop :=
  match part with
  | length _ | text _ => bytes = part.put
  | scalar _ | element _ => ∃ digits : Bytes, bytes = putLength digits.length ++ digits ∧
      part.put = putLength digits.length ++ digits.map Hex.lower

theorem SameUpToCase.length_eq {part : Part} {bytes : Bytes} (h : part.SameUpToCase bytes) :
    bytes.length = part.put.length := by
  have hdigits : (∃ digits : Bytes, bytes = putLength digits.length ++ digits ∧
      part.put = putLength digits.length ++ digits.map Hex.lower) →
      bytes.length = part.put.length := by
    rintro ⟨digits, hbytes, hput⟩
    rw [hbytes, hput, List.length_append, List.length_append, List.length_map]
  cases part with
  | length n => exact congrArg List.length h
  | text content => exact congrArg List.length h
  | scalar x => exact hdigits h
  | element x => exact hdigits h

/-- A spelling is the part as it is written, up to the case of digits, unless it is the
empty text for an element of width zero. -/
theorem Spells.sameUpToCase {part : Part} {bytes : Bytes} (h : part.Spells bytes)
    (hwidth : ∀ x, part = element x → 0 < x.width) : part.SameUpToCase bytes := by
  have hdigits : ∀ {content digits : String}, SpellsText content bytes →
      (Bytes.ofText content).map Hex.lower = Bytes.ofText digits →
      ∃ read : Bytes, bytes = putLength read.length ++ read ∧
        putText digits = putLength read.length ++ read.map Hex.lower := by
    intro content digits hspells hlower
    refine ⟨Bytes.ofText content, hspells.eq, ?_⟩
    rw [putText, ← hlower, List.length_map]
  cases part with
  | length n => exact h.2
  | text content => exact h.eq
  | scalar x =>
      obtain ⟨content, hspells, hread⟩ := h
      exact hdigits hspells (Scalar.ofHex_eq_ok_iff.mp hread)
  | element x =>
      obtain ⟨content, hspells, hread⟩ := h
      have hfits := Element.fitsWidth_of_ofHex hread (hwidth x rfl)
      exact hdigits hspells (hfits.ofHex_eq_ok_iff.mp hread)

/-- What was spelled can be written, unless it is an element of width zero: case does not
change the length of a text. -/
theorem Spells.fits {part : Part} {bytes : Bytes} (h : part.Spells bytes)
    (hwidth : ∀ x, part = element x → 0 < x.width) : part.Fits := by
  have hlt : ∀ {content digits : String}, SpellsText content bytes →
      (Bytes.ofText content).map Hex.lower = Bytes.ofText digits →
      (Bytes.ofText digits).length < 2 ^ 64 := by
    intro content digits hspells hlower
    rw [← hlower, List.length_map]
    exact hspells.length_lt
  cases part with
  | length n => exact fits_length_iff.mpr h.1
  | text content => exact ⟨h.length_lt, fun _ hx => by cases hx⟩
  | scalar x =>
      obtain ⟨content, hspells, hread⟩ := h
      exact ⟨hlt hspells (Scalar.ofHex_eq_ok_iff.mp hread), fun _ hx => by cases hx⟩
  | element x =>
      obtain ⟨content, hspells, hread⟩ := h
      have hfits := Element.fitsWidth_of_ofHex hread (hwidth x rfl)
      refine ⟨hlt hspells (hfits.ofHex_eq_ok_iff.mp hread), fun y hy => ?_⟩
      cases hy
      exact hfits

end Part

theorem spelling_put {parts : List Part} (h : ∀ part ∈ parts, part.Fits) :
    Spelling parts (parts.flatMap Part.put) := by
  refine ⟨parts.map Part.put, ?_, List.flatMap_def⟩
  rw [List.forall₂_map_right_iff, List.forall₂_same]
  exact fun part hpart => (h part hpart).spells_put

/-- Parts that were spelled can be written. -/
theorem Spelling.fits {parts : List Part} {bytes : Bytes} (h : Spelling parts bytes)
    (hwidth : ∀ x, .element x ∈ parts → 0 < x.width) : ∀ part ∈ parts, part.Fits := by
  obtain ⟨pieces, hpieces, rfl⟩ := h
  intro part hpart
  obtain ⟨i, hi, rfl⟩ := List.getElem_of_mem hpart
  refine (hpieces.get hi (hpieces.length_eq ▸ hi)).fits fun x hx => hwidth x ?_
  rw [← hx]
  exact hpart

theorem Spelling.exists_sameUpToCase {parts : List Part} {bytes : Bytes}
    (h : Spelling parts bytes) (hwidth : ∀ x, .element x ∈ parts → 0 < x.width) :
    ∃ pieces, List.Forall₂ Part.SameUpToCase parts pieces ∧ bytes = pieces.flatten := by
  obtain ⟨pieces, hpieces, rfl⟩ := h
  refine ⟨pieces, ?_, rfl⟩
  induction hpieces with
  | nil => exact List.Forall₂.nil
  | cons hpart _ ih =>
      refine List.Forall₂.cons (hpart.sameUpToCase fun x hx => hwidth x ?_)
        (ih fun x hx => hwidth x (List.mem_cons_of_mem _ hx))
      rw [hx]
      exact List.mem_cons_self

theorem length_flatten_of_sameUpToCase {parts : List Part} {pieces : List Bytes}
    (h : List.Forall₂ Part.SameUpToCase parts pieces) :
    pieces.flatten.length = (parts.flatMap Part.put).length := by
  induction h with
  | nil => rfl
  | cons hpart _ ih =>
      rw [List.flatten_cons, List.flatMap_cons, List.length_append, List.length_append,
        hpart.length_eq, ih]

end VerifiableMix.Binary
