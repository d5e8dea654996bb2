import VerifiableMix.Json.Printer
import VerifiableMix.Json.Reader
import VerifiableMix.Proofs.Failure

/-!
# Printed documents are read back

A document that was printed is read as the value that it stands for.  Inside a text
every character is read back from its escape as one piece; a list or a record is read
back when its items are, whatever the level at which their lines stand.

The reader bounds the depth of its recursion, and every call for a nested value uses up
one unit of the bound.  It never runs out, because the bound is at least the number of
characters that are still to be read.

## Main results

* `readString_quote` — a quoted text is read back, whatever its characters are.
* `readsBack_list`, `readsBack_record` — so is what is made of parts that are read back.
* `parse_render` — so is every document.
-/

namespace VerifiableMix.Document

open Json Failure

/-! ## White space -/

theorem skipSpace_cons {c : Char} (h : isSpace c = false) (cs : List Char) :
    skipSpace (c :: cs) = c :: cs := by
  rw [skipSpace, List.dropWhile_cons_of_neg (by simp [h])]

/-- The start of a line is white space. -/
theorem skipSpace_newline (level : Nat) (cs : List Char) :
    skipSpace (newline level ++ cs) = skipSpace cs := by
  have hspace : ∀ c ∈ newline level, isSpace c := by
    intro c hc
    rcases List.mem_cons.mp hc with rfl | hc
    · rfl
    · rw [(List.mem_replicate.mp hc).2]
      rfl
  rw [skipSpace, skipSpace, List.dropWhile_append_of_pos hspace]

/-! ## Texts -/

/-- A code below the surrogates stands for its own character. -/
theorem joinPieces_unit {code : Nat} (h : code < 0xD800) (pieces : List Piece) :
    joinPieces (.unit code :: pieces) = (joinPieces pieces).map (Char.ofNat code :: ·) := by
  have hhigh : isHighSurrogate code = false := by
    simp [isHighSurrogate]
    omega
  have hlow : isLowSurrogate code = false := by
    simp [isLowSurrogate]
    omega
  rcases pieces with _ | ⟨c | low, rest⟩ <;> simp [joinPieces, hhigh, hlow]

theorem codeUnit?_escape {n : Nat} (h : n < 32) :
    codeUnit? '0' '0' (Nat.digitChar (n / 16)) (Nat.digitChar (n % 16)) = some n := by
  have hall : ∀ k : Fin 32,
      codeUnit? '0' '0' (Nat.digitChar (k / 16)) (Nat.digitChar (k % 16)) = some k.val := by
    decide
  exact hall ⟨n, h⟩

/-- The piece is what is read from some characters, whatever follows them. -/
def ReadsPiece (written : List Char) (piece : Piece) : Prop :=
  ∀ cs, readPieces (written ++ cs) =
    (readPieces cs).map fun (pieces, rest) => (piece :: pieces, rest)

theorem readsPiece_letter {letter c : Char} (h : escaped? letter = some c) :
    ReadsPiece ['\\', letter] (.char c) := by
  intro cs
  show readPieces ('\\' :: letter :: cs) = _
  rw [readPieces, h]
  · cases readPieces cs <;> rfl
  · rintro _ _ _ _ _ rfl
    cases h

theorem readsPiece_self {c : Char} (hquote : c ≠ '"') (hbackslash : c ≠ '\\')
    (hprintable : 32 ≤ c.toNat) : ReadsPiece [c] (.char c) := by
  intro cs
  show readPieces (c :: cs) = _
  rw [readPieces, if_neg (Nat.not_lt_of_le hprintable)]
  · cases readPieces cs <;> rfl
  · exact hquote
  · exact fun _ _ _ _ _ h => (hbackslash h).elim
  · exact fun _ _ h => (hbackslash h).elim

/-- A character is read back from its escape as one piece, and the piece stands for
it. -/
theorem exists_piece (c : Char) :
    ∃ piece, ReadsPiece (escape c) piece ∧
      ∀ pieces, joinPieces (piece :: pieces) = (joinPieces pieces).map (c :: ·) := by
  have hchar : ∀ pieces, joinPieces (.char c :: pieces) = (joinPieces pieces).map (c :: ·) :=
    fun _ => rfl
  have hletter : ∀ letter, escaped? letter = some c → ∃ piece, ReadsPiece ['\\', letter] piece ∧
      ∀ pieces, joinPieces (piece :: pieces) = (joinPieces pieces).map (c :: ·) :=
    fun letter h => ⟨.char c, readsPiece_letter h, hchar⟩
  unfold escape
  -- Seven characters are escaped by a letter of their own.
  iterate 7
    split
    · subst c
      exact hletter _ rfl
  split
  · rename_i hcontrol
    refine ⟨.unit c.toNat, fun cs => ?_, fun pieces => ?_⟩
    · simp only [List.cons_append, List.nil_append, readPieces, codeUnit?_escape hcontrol]
      cases readPieces cs <;> rfl
    · rw [joinPieces_unit (by omega), Char.ofNat_toNat]
  · rename_i hquote hbackslash _ _ _ _ _ hprintable
    exact ⟨.char c, readsPiece_self hquote hbackslash (Nat.le_of_not_lt hprintable), hchar⟩

/-- A quoted text is read back. -/
theorem readString_quote (content : String) (rest : List Char) :
    readString (content.toList.flatMap escape ++ '"' :: rest) = some (some content, rest) := by
  have hpieces : ∀ cs : List Char, ∃ pieces,
      readPieces (cs.flatMap escape ++ '"' :: rest) = some (pieces, rest) ∧
        joinPieces pieces = some cs := by
    intro cs
    induction cs with
    | nil => exact ⟨[], rfl, rfl⟩
    | cons c cs ih =>
        obtain ⟨pieces, hread, hjoin⟩ := ih
        obtain ⟨piece, hpiece, hstands⟩ := exists_piece c
        refine ⟨piece :: pieces, ?_, ?_⟩
        · rw [List.flatMap_cons, List.append_assoc, hpiece, hread, Option.map_some]
        · rw [hstands, hjoin, Option.map_some]
  obtain ⟨pieces, hread, hjoin⟩ := hpieces content.toList
  rw [readString, hread]
  simp [hjoin]

theorem skipSpace_quote (content : String) (cs : List Char) :
    skipSpace (quote content ++ cs) = quote content ++ cs :=
  skipSpace_cons rfl _

/-! ## Values -/

/-- At every level, the printed document is read as its value, given a unit of the
bound for each character. -/
def ReadsBack (d : Document) : Prop :=
  ∀ (level depth : Nat) (rest : List Char), (d.print level).length ≤ depth →
    readValue depth (d.print level ++ rest) = some (d.toJson, rest)

/-- A document begins with a quote or an opening bracket. -/
theorem exists_print_eq_cons (level : Nat) (d : Document) :
    ∃ c cs, d.print level = c :: cs ∧ isSpace c = false ∧ c ≠ ']' := by
  match d with
  | text content => exact ⟨'"', _, rfl, rfl, by decide⟩
  | list [] => exact ⟨'[', _, by rw [print], rfl, by decide⟩
  | list (item :: items) => exact ⟨'[', _, by rw [print]; rfl, rfl, by decide⟩
  | record [] => exact ⟨'\x7b', _, by rw [print], rfl, by decide⟩
  | record ((name, value) :: fields) => exact ⟨'\x7b', _, by rw [print]; rfl, rfl, by decide⟩

theorem skipSpace_print (level : Nat) (d : Document) (cs : List Char) :
    skipSpace (d.print level ++ cs) = d.print level ++ cs := by
  obtain ⟨c, tail, hprint, hspace, _⟩ := exists_print_eq_cons level d
  rw [hprint, List.cons_append, skipSpace_cons hspace]

/-! ## Lists -/

/-- Items are read back up to the end of their list. -/
theorem readItems_print (level line : Nat) (rest : List Char) {item : Document}
    {items : List Document} (hitems : ∀ d ∈ item :: items, ReadsBack d) {depth : Nat}
    (hdepth : (item.print level).length + (printItems level items).length < depth) :
    readItems depth (item.print level ++ (printItems level items ++ (newline line ++ ']' :: rest))) =
      some (item.toJson :: itemsToJson items, rest) := by
  induction items generalizing item depth with
  | nil =>
      obtain ⟨depth, rfl⟩ := Nat.exists_eq_add_one_of_ne_zero (Nat.ne_zero_of_lt hdepth)
      have hitem := hitems item (by simp) level depth (newline line ++ ']' :: rest) (by omega)
      rw [readItems, printItems, List.nil_append, hitem]
      simp [skipSpace_newline, skipSpace_cons, isSpace, itemsToJson]
  | cons next items ih =>
      obtain ⟨depth, rfl⟩ := Nat.exists_eq_add_one_of_ne_zero (Nat.ne_zero_of_lt hdepth)
      have hlength : (item.print level).length + ((next.print level).length +
          (printItems level items).length) < depth := by
        simp only [printItems, List.length_cons, List.length_append] at hdepth
        omega
      have hitem := hitems item (by simp) level depth
        (',' :: (newline level ++ (next.print level ++ (printItems level items ++
          (newline line ++ ']' :: rest))))) (by omega)
      have hrest := @ih next (fun d hd => hitems d (List.mem_cons_of_mem _ hd)) depth (by omega)
      have hcomma : isSpace ',' = false := rfl
      rw [readItems, printItems]
      simp only [List.cons_append, List.append_assoc]
      rw [hitem]
      simp [skipSpace_cons hcomma, skipSpace_newline, skipSpace_print, hrest, itemsToJson]

/-- A list is read back when its items are. -/
theorem readsBack_list {items : List Document} (hitems : ∀ d ∈ items, ReadsBack d) :
    ReadsBack (.list items) := by
  intro level depth rest hdepth
  cases items with
  | nil =>
      rw [print] at hdepth ⊢
      obtain ⟨depth, rfl⟩ := Nat.exists_eq_add_one_of_ne_zero (Nat.ne_zero_of_lt hdepth)
      rfl
  | cons item items =>
      rw [print] at hdepth ⊢
      simp only [List.length_cons, List.length_append, newline] at hdepth
      obtain ⟨depth, rfl⟩ := Nat.exists_eq_add_one_of_ne_zero (Nat.ne_zero_of_lt hdepth)
      have hread := @readItems_print (level + 1) level rest item items hitems depth (by omega)
      obtain ⟨c, tail, hprint, _, hc⟩ := exists_print_eq_cons (level + 1) item
      simp only [List.cons_append, List.append_assoc, List.nil_append]
      rw [readValue, skipSpace_newline, skipSpace_print]
      rw [hprint] at hread ⊢
      -- An item does not begin like the end of its list.
      split
      · rename_i hbracket
        exact (hc (List.cons.inj hbracket).1).elim
      · rw [hread]
        rfl

/-! ## Records -/

/-- Fields are read back up to the end of their record. -/
theorem readFields_print (level line : Nat) (rest : List Char) {name : String} {value : Document}
    {fields : List (String × Document)} (hfields : ∀ f ∈ (name, value) :: fields, ReadsBack f.2)
    {depth : Nat}
    (hdepth : (value.print level).length + (printFields level fields).length < depth) :
    readFields depth (quote name ++ (':' :: ' ' :: (value.print level ++
        (printFields level fields ++ (newline line ++ '\x7d' :: rest))))) =
      some ((some name, value.toJson) :: fieldsToJson fields, rest) := by
  have hcolon : isSpace ':' = false := rfl
  have hspace : ∀ cs, skipSpace (' ' :: cs) = skipSpace cs := fun _ => rfl
  induction fields generalizing name value depth with
  | nil =>
      obtain ⟨depth, rfl⟩ := Nat.exists_eq_add_one_of_ne_zero (Nat.ne_zero_of_lt hdepth)
      have hreads : ReadsBack value := hfields (name, value) (by simp)
      have hvalue := hreads level depth (newline line ++ '\x7d' :: rest) (by omega)
      have hend : isSpace '\x7d' = false := rfl
      rw [printFields, quote]
      simp only [List.cons_append, List.append_assoc, List.nil_append]
      rw [readFields, readString_quote]
      simp [skipSpace_cons hcolon, hspace, skipSpace_print, hvalue, skipSpace_newline,
        skipSpace_cons hend, fieldsToJson]
  | cons next fields ih =>
      obtain ⟨depth, rfl⟩ := Nat.exists_eq_add_one_of_ne_zero (Nat.ne_zero_of_lt hdepth)
      obtain ⟨nextName, nextValue⟩ := next
      have hlength : (value.print level).length + ((nextValue.print level).length +
          (printFields level fields).length) < depth := by
        simp only [printFields, List.length_cons, List.length_append] at hdepth
        omega
      have hreads : ReadsBack value := hfields (name, value) (by simp)
      have hvalue := hreads level depth
        (',' :: (newline level ++ (quote nextName ++ (':' :: ' ' :: (nextValue.print level ++
          (printFields level fields ++ (newline line ++ '\x7d' :: rest))))))) (by omega)
      have hrest := @ih nextName nextValue
        (fun f hf => hfields f (List.mem_cons_of_mem _ hf)) depth (by omega)
      have hcomma : isSpace ',' = false := rfl
      rw [printFields, quote]
      simp only [List.cons_append, List.append_assoc, List.nil_append]
      rw [readFields, readString_quote]
      simp [skipSpace_cons hcolon, hspace, skipSpace_print, hvalue, skipSpace_cons hcomma,
        skipSpace_newline, skipSpace_quote, hrest, fieldsToJson]

/-- A record is read back when its values are. -/
theorem readsBack_record {fields : List (String × Document)}
    (hfields : ∀ f ∈ fields, ReadsBack f.2) : ReadsBack (.record fields) := by
  intro level depth rest hdepth
  cases fields with
  | nil =>
      rw [print] at hdepth ⊢
      obtain ⟨depth, rfl⟩ := Nat.exists_eq_add_one_of_ne_zero (Nat.ne_zero_of_lt hdepth)
      rfl
  | cons field fields =>
      obtain ⟨name, value⟩ := field
      rw [print] at hdepth ⊢
      simp only [List.length_cons, List.length_append, newline] at hdepth
      obtain ⟨depth, rfl⟩ := Nat.exists_eq_add_one_of_ne_zero (Nat.ne_zero_of_lt hdepth)
      have hread := @readFields_print (level + 1) level rest name value fields hfields depth
        (by omega)
      simp only [List.cons_append, List.append_assoc, List.nil_append]
      rw [readValue, skipSpace_newline, skipSpace_quote]
      simp only [quote, List.cons_append] at hread ⊢
      split
      · rename_i hbrace
        exact absurd (List.cons.inj hbrace).1 (by decide)
      · rw [hread]
        rfl

/-! ## Documents -/

theorem readsBack_text (content : String) : ReadsBack (.text content) := by
  intro level depth rest hdepth
  rw [print, quote] at hdepth ⊢
  obtain ⟨depth, rfl⟩ := Nat.exists_eq_add_one_of_ne_zero (Nat.ne_zero_of_lt hdepth)
  simp only [List.cons_append, List.append_assoc, List.nil_append]
  rw [readValue, readAtom, readString_quote]
  · rfl
  · exact fun _ h => absurd (List.cons.inj h).1 (by decide)
  · exact fun _ h => absurd (List.cons.inj h).1 (by decide)

/-- Every document is read back. -/
theorem readsBack : ∀ d : Document, ReadsBack d
  | text content => readsBack_text content
  | list items => readsBack_list fun d _ => readsBack d
  | record fields => readsBack_record fun f _ => readsBack f.2
termination_by d => sizeOf d
decreasing_by
  · have hsize := List.sizeOf_lt_of_mem ‹d ∈ items›
    simp only [list.sizeOf_spec]
    omega
  · have hsize := List.sizeOf_lt_of_mem ‹f ∈ fields›
    simp only [record.sizeOf_spec]
    cases f
    simp only [Prod.mk.sizeOf_spec] at hsize ⊢
    omega

/-- A printed document is read as its value. -/
theorem parse_render (d : Document) : Json.parse d.render = some d.toJson := by
  have hread := readsBack d 0 ((d.print 0).length + 1) [] (Nat.le_succ _)
  have hstart := skipSpace_print 0 d []
  rw [List.append_nil] at hread hstart
  rw [parse, render, String.toList_ofList, hstart, hread]
  rfl

/-! ## The value of a document -/

theorem itemsToJson_eq_map (items : List Document) : itemsToJson items = items.map toJson := by
  induction items with
  | nil => rfl
  | cons item items ih => rw [itemsToJson, ih, List.map_cons]

theorem fieldsToJson_eq_map (fields : List (String × Document)) :
    fieldsToJson fields = fields.map fun f => (some f.1, f.2.toJson) := by
  induction fields with
  | nil => rfl
  | cons field fields ih => rw [fieldsToJson, ih, List.map_cons]

/-- A field is found by its name when no other field has it. -/
theorem lookup?_of_mem {named : List (String × Json)} (hnodup : (named.map (·.1)).Nodup)
    {field : String × Json} (hfield : field ∈ named) :
    lookup? field.1 named = some (some field.2) := by
  have hfilter : named.filter (·.1 == field.1) = [field] := by
    induction named with
    | nil => cases hfield
    | cons head rest ih =>
        obtain ⟨hhead, hrest⟩ := List.nodup_cons.mp hnodup
        have hother : ∀ f ∈ rest, f.1 ≠ head.1 :=
          fun f hf hname => hhead (List.mem_map.mpr ⟨f, hf, hname⟩)
        rcases List.mem_cons.mp hfield with rfl | hfield
        · have hnone : rest.filter (·.1 == field.1) = [] :=
            List.filter_eq_nil_iff.mpr fun f hf => by simp [hother f hf]
          simp [hnone]
        · have hne := (hother field hfield).symm
          simp [hne, ih hrest hfield]
  rw [lookup?, hfilter]

/-- The fields of a record are read in their order. -/
theorem fields?_record (fields : List (String × Document)) (hnodup : (fields.map (·.1)).Nodup) :
    Json.fields? (fields.map (·.1)) (record fields).toJson =
      some (fields.map fun f => f.2.toJson) := by
  let named := fields.map fun f => (f.1, f.2.toJson)
  have hnamed : namedFields? (fieldsToJson fields) = some named := by
    rw [fieldsToJson_eq_map, namedFields?, List.mapM_map]
    exact mapM_eq_pure fun f _ => rfl
  have hnames : named.map (·.1) = fields.map (·.1) := by
    rw [List.map_map]
    rfl
  have hlookup : (fields.map (·.1)).mapM (lookup? · named) =
      some (fields.map fun f => some f.2.toJson) := by
    rw [List.mapM_map]
    refine mapM_eq_pure fun f hf => ?_
    have hfield : (f.1, f.2.toJson) ∈ named := List.mem_map_of_mem hf
    exact lookup?_of_mem (hnames ▸ hnodup) hfield
  have hall : (fields.map fun f => some f.2.toJson).mapM id =
      some (fields.map fun f => f.2.toJson) := by
    rw [List.mapM_map]
    exact mapM_eq_pure fun f _ => rfl
  rw [toJson, Json.fields?, optionalFields?]
  simp only [Option.bind_eq_bind]
  rw [hnamed, Option.bind_some, hlookup, Option.bind_some, hall]

end VerifiableMix.Document
