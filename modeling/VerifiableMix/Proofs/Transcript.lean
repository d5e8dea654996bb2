import VerifiableMix.Bytes.Lemmas
import VerifiableMix.Group.Builtin
import VerifiableMix.Proof
import VerifiableMix.Proofs.Text

/-!
# Transcripts are injective

What a challenge is bound to is one flat list of entries, and the values that
went into it can be read off the list again.  Vectors and row sets have no end
mark, so the statement about one kind of value says when its entries can be told
from those that follow: `Delimits encode view labels` says that they can unless
one of the labels comes next.  A vector ends where its label ends, and a row set
where neither its label nor that of a width comes next.

Elements are read back by value, as their widths are not written.  Lengths are
written modulo `2 ^ 64`, but the labels delimit vectors of any length, so nothing
is assumed about lengths.

## Main results

* `Entry.Delimits.flatMap` — a list is delimited when its items are.
* `sameStatement_of_entries_eq`, `sameValues_of_entries_eq` — what each of the two
  challenges is bound to.
* `entries_injective` — both at once.
-/

namespace VerifiableMix

/-- The values of a row, column by column. -/
def Row.values (row : Row) : List (Nat × Nat) :=
  row.map fun x => (x.pad.value, x.data.value)

namespace Entry

variable {α β : Type} {label : String} {labels : List String}

/-! ## Where entries end -/

/-- The entries do not begin with one of the labels. -/
def Past (labels : List String) (entries : List Entry) : Prop :=
  ∀ entry ∈ entries.head?, entry.label ∉ labels

theorem past_nil : Past labels [] := by
  simp [Past]

theorem past_cons {entry : Entry} {rest : List Entry} (h : entry.label ∉ labels) :
    Past labels (entry :: rest) := by
  simpa [Past] using h

/-- The entries of a value tell what there is to see of it and where they end,
unless one of the labels comes next. -/
structure Delimits (encode : α → List Entry) (view : α → β) (labels : List String) : Prop where
  inj : ∀ {x y : α} {rest rest' : List Entry}, Past labels rest → Past labels rest' →
    encode x ++ rest = encode y ++ rest' → view x = view y ∧ rest = rest'

namespace Delimits

variable {encode : α → List Entry} {view : α → β}

/-- Nothing needs to follow. -/
theorem view_eq (h : Delimits encode view labels) {x y : α} (heq : encode x = encode y) :
    view x = view y :=
  (h.inj past_nil past_nil (congrArg (· ++ []) heq)).1

/-- A value with one entry of its own. -/
theorem single {entry : α → Entry} (h : ∀ x y, entry x = entry y → view x = view y) :
    Delimits (fun x => [entry x]) view [] where
  inj := by
    intro x y rest rest' _ _ heq
    obtain ⟨hentry, hrest⟩ := List.cons.inj heq
    exact ⟨h x y hentry, hrest⟩

/-- An entry in front changes nothing. -/
theorem cons (header : α → Entry) (h : Delimits encode view labels) :
    Delimits (fun x => header x :: encode x) view labels where
  inj := by
    intro x y rest rest' hpast hpast' heq
    exact h.inj hpast hpast' (List.cons.inj heq).2

/-- A list is delimited when its items are, and each of them begins with a label
by which the one before it has ended. -/
theorem flatMap (h : Delimits encode view labels)
    (hhead : ∀ x, ∃ entry tail, encode x = entry :: tail ∧ entry.label = label)
    (hlabel : label ∉ labels) :
    Delimits (fun xs : List α => xs.flatMap encode) (List.map view) (label :: labels) := by
  have hnext : ∀ (zs : List α) {rest : List Entry}, Past (label :: labels) rest →
      Past labels (zs.flatMap encode ++ rest) := by
    intro zs rest hpast
    cases zs with
    | nil => exact fun entry he hmem => hpast entry he (List.mem_cons_of_mem _ hmem)
    | cons z zs =>
        obtain ⟨entry, tail, hz, rfl⟩ := hhead z
        rw [List.flatMap_cons, hz]
        exact past_cons hlabel
  -- what follows one list is not taken for items of the other
  have hend : ∀ (z : α) (zs : List α) {rest rest' : List Entry}, Past (label :: labels) rest →
      rest ≠ (z :: zs).flatMap encode ++ rest' := by
    rintro z zs rest rest' hpast rfl
    obtain ⟨entry, tail, hz, rfl⟩ := hhead z
    rw [List.flatMap_cons, hz] at hpast
    exact hpast entry rfl List.mem_cons_self
  constructor
  intro xs
  induction xs with
  | nil =>
      intro ys rest rest' hpast _ heq
      cases ys with
      | nil => exact ⟨rfl, heq⟩
      | cons y ys => exact absurd heq (hend y ys hpast)
  | cons x xs ih =>
      intro ys rest rest' hpast hpast' heq
      cases ys with
      | nil => exact absurd heq.symm (hend x xs hpast')
      | cons y ys =>
          simp only [List.flatMap_cons, List.append_assoc] at heq
          obtain ⟨hview, htail⟩ := h.inj (hnext xs hpast) (hnext ys hpast') heq
          obtain ⟨hviews, hrest⟩ := ih hpast hpast' htail
          exact ⟨by rw [List.map_cons, List.map_cons, hview, hviews], hrest⟩

/-- A vector with one entry for each of its items. -/
theorem vector {item : α → Entry} (hlabel : ∀ x, (item x).label = label)
    (h : ∀ x y, item x = item y → view x = view y) :
    Delimits (fun xs : List α => length label xs.length :: xs.map item) (List.map view)
      [label] := by
  have hitems := (single h).flatMap (fun x => ⟨item x, [], rfl, hlabel x⟩) List.not_mem_nil
  simp only [← List.map_eq_flatMap] at hitems
  exact hitems.cons _

end Delimits

/-! ## Scalars, elements and rows -/

@[simp] theorem label_length (n : Nat) : (length label n).label = label := rfl

@[simp] theorem label_scalar (x : Scalar) : (scalar label x).label = label := rfl

@[simp] theorem label_element (G : Group) (x : Element) : (element G label x).label = label := rfl

theorem text_inj {x y : String} (h : text label x = text label y) : x = y :=
  Bytes.ofText_injective (Entry.mk.inj h).2

theorem scalar_inj {x y : Scalar} (h : scalar label x = scalar label y) : x = y := by
  have hbytes := congrArg Bytes.toNatBE (Entry.mk.inj h).2
  rw [Scalar.toNatBE_toBytes, Scalar.toNatBE_toBytes] at hbytes
  exact Scalar.ext hbytes

variable {G : Group}

/-- An entry holds the value of an element, also of one that does not fit the
width of the group. -/
theorem element_inj {x y : Element} (h : element G label x = element G label y) :
    x.value = y.value := by
  have hbytes := congrArg Bytes.toNatBE (Entry.mk.inj h).2
  rwa [Group.toBytes, Group.toBytes, Bytes.toNatBE_padded, Bytes.toNatBE_padded] at hbytes

theorem delimits_scalars : Delimits (scalars label) id [label] := by
  have h : Delimits (scalars label) (List.map id) [label] :=
    .vector (fun _ => rfl) fun _ _ h => scalar_inj h
  rwa [List.map_id_fun] at h

theorem delimits_elements : Delimits (elements G label) ElementVector.values [label] :=
  .vector (fun _ => rfl) fun _ _ h => element_inj h

/-- A row of any width. -/
theorem delimits_row : Delimits (row G label) Row.values [label] := by
  have hitem : Delimits (fun x : Ciphertext => [element G label x.pad, element G label x.data])
      (fun x => (x.pad.value, x.data.value)) [] := by
    constructor
    intro x y rest rest' _ _ heq
    obtain ⟨hpad, htail⟩ := List.cons.inj heq
    obtain ⟨hdata, hrest⟩ := List.cons.inj htail
    exact ⟨Prod.ext (element_inj hpad) (element_inj hdata), hrest⟩
  exact (hitem.flatMap (fun x => ⟨_, _, rfl, rfl⟩) List.not_mem_nil).cons _

/-- A row set, also an empty one or one with rows of different widths. -/
theorem delimits_rows (hlabel : "width" ≠ label) :
    Delimits (rows G label) (List.map Row.values) ["width", label] := by
  have hnew : "width" ∉ [label] := by simpa using hlabel
  exact (delimits_row.flatMap (fun x => ⟨_, _, rfl, rfl⟩) hnew).cons _

end Entry

/-! ## The two challenges -/

variable {G : Group}

/-- What the batching vector is drawn from agrees: the names of the mixes are
equal, and all else has one shape and the same value at every place. -/
structure SameStatement (mixName mixName' : String) (gens gens' : Generators)
    (u u' : ElementVector) (s s' : Statement) : Prop where
  mixName : mixName = mixName'
  h0 : gens.h0.value = gens'.h0.value
  generators : gens.rows.values = gens'.rows.values
  u : u.values = u'.values
  pk : s.pk.key.value = s'.pk.key.value
  rows : s.rows.map Row.values = s'.rows.map Row.values
  mixed : s.mixed.map Row.values = s'.mixed.map Row.values

/-- Two first messages have one shape and the same value at every place. -/
structure ProofCommitment.SameValues (c c' : ProofCommitment) : Prop where
  u : c.u.values = c'.u.values
  d : c.d = c'.d
  e : c.e = c'.e
  bridges : c.bridges.values = c'.bridges.values
  maskA : c.maskA.value = c'.maskA.value
  bridgeMasks : c.bridgeMasks.values = c'.bridgeMasks.values
  maskC : c.maskC.value = c'.maskC.value
  maskD : c.maskD.value = c'.maskD.value
  rowMask : c.rowMask.values = c'.rowMask.values

/-- The entries behind the batching vector determine what it is drawn from. -/
theorem sameStatement_of_entries_eq {mixName mixName' : String} {gens gens' : Generators}
    {u u' : ElementVector} {s s' : Statement}
    (h : statementEntries G mixName gens u s = statementEntries G mixName' gens' u' s') :
    SameStatement mixName mixName' gens gens' u u' s s' := by
  simp only [statementEntries, List.append_assoc, List.cons_append, List.nil_append,
    List.cons.injEq] at h
  obtain ⟨_, hname, _, hh0, h⟩ := h
  obtain ⟨hgenerators, h⟩ := Entry.delimits_elements.inj (Entry.past_cons (by simp))
    (Entry.past_cons (by simp)) h
  obtain ⟨hu, h⟩ := Entry.delimits_elements.inj (Entry.past_cons (by simp))
    (Entry.past_cons (by simp)) h
  obtain ⟨hpk, h⟩ := List.cons.inj h
  obtain ⟨hrows, hmixed⟩ := (Entry.delimits_rows (by simp)).inj (Entry.past_cons (by simp))
    (Entry.past_cons (by simp)) h
  exact
    { mixName := Entry.text_inj hname
      h0 := Entry.element_inj hh0
      generators := hgenerators
      u := hu
      pk := Entry.element_inj hpk
      rows := hrows
      mixed := (Entry.delimits_rows (by simp)).view_eq hmixed }

/-- The entries behind the reply challenge determine the first message. -/
theorem sameValues_of_entries_eq {c c' : ProofCommitment}
    (h : commitmentEntries G c = commitmentEntries G c') : c.SameValues c' := by
  simp only [commitmentEntries, List.append_assoc, List.cons_append, List.nil_append] at h
  obtain ⟨hu, h⟩ := Entry.delimits_elements.inj (Entry.past_cons (by simp))
    (Entry.past_cons (by simp)) h
  obtain ⟨hd, h⟩ := List.cons.inj h
  obtain ⟨he, h⟩ := Entry.delimits_scalars.inj (Entry.past_cons (by simp))
    (Entry.past_cons (by simp)) h
  obtain ⟨hbridges, h⟩ := Entry.delimits_elements.inj (Entry.past_cons (by simp))
    (Entry.past_cons (by simp)) h
  obtain ⟨hmaskA, h⟩ := List.cons.inj h
  obtain ⟨hbridgeMasks, h⟩ := Entry.delimits_elements.inj (Entry.past_cons (by simp))
    (Entry.past_cons (by simp)) h
  obtain ⟨hmaskC, h⟩ := List.cons.inj h
  obtain ⟨hmaskD, hrowMask⟩ := List.cons.inj h
  exact
    { u := hu
      d := Entry.scalar_inj hd
      e := he
      bridges := hbridges
      maskA := Entry.element_inj hmaskA
      bridgeMasks := hbridgeMasks
      maskC := Entry.element_inj hmaskC
      maskD := Entry.element_inj hmaskD
      rowMask := Entry.delimits_row.view_eq hrowMask }

/-- Equal entries come from equal values, for the batching vector as for the
reply challenge.  Row sets may be empty or ragged, and no element is checked. -/
theorem entries_injective (G : Group) :
    (∀ (mixName mixName' : String) (gens gens' : Generators) (u u' : ElementVector)
      (s s' : Statement),
      statementEntries G mixName gens u s = statementEntries G mixName' gens' u' s' →
      SameStatement mixName mixName' gens gens' u u' s s') ∧
    ∀ c c' : ProofCommitment,
      commitmentEntries G c = commitmentEntries G c' → c.SameValues c' :=
  ⟨fun _ _ _ _ _ _ _ _ h => sameStatement_of_entries_eq h,
    fun _ _ h => sameValues_of_entries_eq h⟩

/-- Two statements and two first messages that differ in the widths of their
elements only, with ragged rows and elements too large for the group. -/
theorem entries_injective_widths :
    let x (width : Nat) : Ciphertext := ⟨⟨7, width⟩, ⟨2 ^ 600, width⟩⟩
    let s (width : Nat) : Statement := ⟨⟨⟨0, width⟩⟩, [[x width, x width], [], [x width]], []⟩
    let c (width : Nat) : ProofCommitment :=
      ⟨[], 1, [0, 1], [⟨5, width⟩], ⟨0, width⟩, [], ⟨1, width⟩, ⟨2, width⟩, [x width]⟩
    s 0 ≠ s 64 ∧ (s 0).rows.map Row.values = (s 64).rows.map Row.values ∧
      c 0 ≠ c 64 ∧ (c 0).rowMask.values = (c 64).rowMask.values := by
  intro x s c
  have hstatement := (entries_injective Group.test).1 "mix" "mix" ⟨⟨3, 1⟩, []⟩ ⟨⟨3, 2⟩, []⟩
    [] [] (s 0) (s 64) rfl
  have hmessage := (entries_injective Group.test).2 (c 0) (c 64) rfl
  exact ⟨by simp [s], hstatement.rows, by simp [c], hmessage.rowMask⟩

end VerifiableMix
