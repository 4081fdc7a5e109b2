/-
  The LISTING OF AN ASSEMBLY — which words stand beside which line.

  Problem: the listing walks the lines with one hand and the records with the other, and takes the width
  of a line for the number of its records.  If the second pass saw that number otherwise only once, every
  word behind would stand beside a wrong line, and nothing would fail.

  1. **Printed rows** — each row is one line of the printed text, and that line tells all that the row
     shows (`ListingRow.text_injective`).

  2. **Rows of one line** — `rowsOf line own`, when its records are `own`: one row for a line that is no
     statement and for a label, one per record for every other statement.

  3. **Step and run** — `rows_cons` cuts the records of the line in front; where every line has as many
     records as its width, the cuts fall between the lines (`rows_of_shares`).

  4. **Missing lines** — a declaration without values has no record, and so no row at all
     (`rowsOf_eq_nil_iff`); it is the only such line.
-/
import Minicore.Assembly.Listing
import Minicore.Proofs.Assembly.ImageText

namespace Minicore

/-- A text is cut at the first `c` in one way only. -/
theorem Text.append_cons_inj {c : Char} {a b s t : Text} (ha : c ∉ a) (hb : c ∉ b)
    (h : a ++ c :: s = b ++ c :: t) : a = b ∧ s = t := by
  rcases List.append_eq_append_iff.1 h with ⟨d, rfl, hd⟩ | ⟨d, rfl, hd⟩
  · cases d with
    | nil => exact ⟨(List.append_nil a).symm, (List.cons.inj hd).2⟩
    | cons e d =>
      obtain rfl := (List.cons.inj hd).1
      exact absurd (by simp) hb
  · cases d with
    | nil => exact ⟨List.append_nil b, (List.cons.inj hd).2.symm⟩
    | cons e d =>
      obtain rfl := (List.cons.inj hd).1
      exact absurd (by simp) ha

/-! ## Columns -/

namespace Numeral

/-- The characters of a number that is filled up with blanks. -/
theorem mem_padded_decimal {k n : Nat} {c : Char} (h : c ∈ padLeft ' ' k (decimal n)) :
    c = ' ' ∨ c.isDigit = true := by
  rcases List.mem_append.1 h with h | h
  · exact .inl (List.eq_of_mem_replicate h)
  · exact .inr (isDigit_of_mem_decimal h)

/-- A number filled up with blanks is still that number. -/
theorem padded_decimal_inj {k m n : Nat}
    (h : padLeft ' ' k (decimal m) = padLeft ' ' k (decimal n)) : m = n := by
  have hstart : ∀ i, (padLeft ' ' k (decimal i)).trimStart = decimal i := by
    intro i
    have hblank : Text.blank (List.replicate (k - (decimal i).length) ' ') = true :=
      List.all_eq_true.2 fun c hc => by rw [List.eq_of_mem_replicate hc]; decide
    have hfree := Text.not_blank_of_solid (Text.solid_of_all_continues (continues_of_mem_decimal (n := i)))
    rw [padLeft, Text.trimStart_append hblank, (Text.trim_of_free hfree).1]
  exact decimal_injective (by rw [← hstart m, h, hstart n])

/-- Padded digits tell the word. -/
theorem hexPadded_inj {k : Nat} {a b : UInt16} (h : hexPadded k a.toNat = hexPadded k b.toNat) :
    a = b := by
  have hread := fun v : UInt16 => readDigits_hexPadded (toNat_le_maxWord v) k
  have hsame := (hread a).symm.trans (h ▸ hread b)
  simpa using hsame

end Numeral

namespace ListingRow

open Numeral

/-- The source column ends the number at the first colon. -/
theorem source_inj {m n : Nat} {t u : Text} (h : source m t = source n u) : m = n ∧ t = u := by
  have hcolon : ∀ i, ':' ∉ padLeft ' ' 4 (decimal i) := fun i hc => by
    rcases mem_padded_decimal hc with hc | hc <;> exact absurd hc (by decide)
  have hsplit : ∀ i s, source i s =
      "| ".toList ++ (padLeft ' ' 4 (decimal i) ++ ':' :: ' ' :: s) := fun i s => by
    simp [source]
  rw [hsplit, hsplit] at h
  obtain ⟨hnumber, htext⟩ :=
    Text.append_cons_inj (hcolon m) (hcolon n) (List.append_cancel_left h)
  exact ⟨padded_decimal_inj hnumber, (List.cons.inj htext).2⟩

/-- What stands between the brackets of a label. -/
def addressColumn (a : Option UInt16) : Text :=
  padLeft ' ' 2 ((a.map fun v => hexPadded 2 v.toNat).getD [])

/-- At least two digits stand there already. -/
theorem addressColumn_some (a : UInt16) : addressColumn (some a) = hexPadded 2 a.toNat := by
  have hlength : 2 ≤ (hexPadded 2 a.toNat).length := by
    rw [hexPadded, padLeft, List.length_append, List.length_replicate]
    omega
  show padLeft ' ' 2 (hexPadded 2 a.toNat) = _
  rw [padLeft, Nat.sub_eq_zero_of_le hlength]
  rfl

theorem hexDigit_of_mem_column {a : UInt16} {c : Char} (h : c ∈ addressColumn (some a)) :
    isHexDigit c = true := by
  rw [addressColumn_some] at h
  exact List.all_eq_true.1 (isHexDigit_hexPadded 2 a.toNat) c h

theorem not_bracket_column (a : Option UInt16) : ']' ∉ addressColumn a := by
  cases a with
  | none => decide
  | some a => exact fun h => absurd (hexDigit_of_mem_column h) (by decide)

/-- An address column tells the address, and whether there is one. -/
theorem addressColumn_injective : Function.Injective addressColumn := by
  have hblank : ∀ a, addressColumn none ≠ addressColumn (some a) := fun a h => by
    have hmem : ' ' ∈ addressColumn (some a) := h ▸ by decide
    exact absurd (hexDigit_of_mem_column hmem) (by decide)
  intro a b h
  cases a with
  | none =>
    cases b with
    | none => rfl
    | some b => exact absurd h (hblank b)
  | some a =>
    cases b with
    | none => exact absurd h.symm (hblank a)
    | some b =>
      rw [addressColumn_some, addressColumn_some] at h
      rw [hexPadded_inj h]

/-- A coloured text in one of the colours of words. -/
theorem coloured_word_inj {v w : Word} {s t : Text}
    (h : Terminal.colour (wordColour v) v.text ++ s = Terminal.colour (wordColour w) w.text ++ t) :
    v = w ∧ s = t := by
  have hsequence : ∀ w, (Terminal.sequence (wordColour w).number).length = 5 := fun w => by
    cases wordColour w <;> decide
  have hsplit : ∀ w s, Terminal.colour (wordColour w) w.text ++ s =
      Terminal.sequence (wordColour w).number ++ (w.text ++ (Terminal.sequence 39 ++ s)) := fun w s => by
    simp [Terminal.colour]
  rw [hsplit, hsplit] at h
  obtain ⟨-, h⟩ := List.append_inj h ((hsequence v).trans (hsequence w).symm)
  obtain ⟨hword, h⟩ := List.append_inj h (v.length_text.trans w.length_text.symm)
  have hsame := (Word.ofText?_text v).symm.trans (hword ▸ Word.ofText?_text w)
  exact ⟨Option.some.inj hsame, List.append_cancel_left h⟩

/-! ## Printed rows -/

theorem text_label (a : Option UInt16) (n : Nat) (t : Text) :
    (label a n t).text = '[' :: (addressColumn a ++ ']' :: ' ' :: (List.replicate 12 ' ' ++
      source n (Terminal.colour .green t))) := by
  simp [text, addressColumn, List.replicate_succ]

theorem text_word (a : UInt16) (w : Word) (n : Nat) (t : Text) :
    (word a w n t).text = '[' :: (addressColumn (some a) ++ ']' :: ' ' ::
      (Terminal.colour (wordColour w) w.text ++ ("     ".toList ++ source n t))) := by
  simp [text, addressColumn_some]

/-- Behind the brackets a label has blanks where a word has a colour. -/
theorem text_label_ne_word (a : Option UInt16) (b : UInt16) (w : Word) (m n : Nat) (t u : Text) :
    (label a m t).text ≠ (word b w n u).text := by
  rw [text_label, text_word]
  intro h
  obtain ⟨-, hrest⟩ :=
    Text.append_cons_inj (not_bracket_column a) (not_bracket_column _) (List.cons.inj h).2
  simp [Terminal.colour, Terminal.sequence, List.replicate_succ] at hrest

/-- **A printed row tells the row**: its kind, its address, its word, the number and the line. -/
theorem text_injective : Function.Injective text := by
  intro r r' h
  cases r with
  | plain m t =>
    cases r' with
    | plain n u =>
      obtain ⟨rfl, rfl⟩ := source_inj (List.append_cancel_left h)
      rfl
    | label b n u => simp [text, List.replicate_succ] at h
    | word b v n u => simp [text, List.replicate_succ] at h
  | label a m t =>
    cases r' with
    | plain n u => simp [text, List.replicate_succ] at h
    | label b n u =>
      rw [text_label, text_label] at h
      obtain ⟨haddress, hrest⟩ :=
        Text.append_cons_inj (not_bracket_column a) (not_bracket_column b) (List.cons.inj h).2
      obtain ⟨rfl, htext⟩ := source_inj (List.append_cancel_left (List.cons.inj hrest).2)
      obtain rfl := addressColumn_injective haddress
      rw [List.append_cancel_left (List.append_cancel_right htext)]
    | word b v n u => exact absurd h (text_label_ne_word a b v m n t u)
  | word a w m t =>
    cases r' with
    | plain n u => simp [text, List.replicate_succ] at h
    | label b n u => exact absurd h.symm (text_label_ne_word b a w n m u t)
    | word b v n u =>
      rw [text_word, text_word] at h
      obtain ⟨haddress, hrest⟩ :=
        Text.append_cons_inj (not_bracket_column _) (not_bracket_column _) (List.cons.inj h).2
      obtain ⟨rfl, hsource⟩ := coloured_word_inj (List.cons.inj hrest).2
      obtain ⟨rfl, rfl⟩ := source_inj (List.append_cancel_left hsource)
      obtain rfl := Option.some.inj (addressColumn_injective haddress)
      rfl

/-- The line of the source that the row shows. -/
def shown : ListingRow → Text
  | .plain _ t => t
  | .label _ _ t => t
  | .word _ _ _ t => t

/-- The address and the word of the row, if it shows a word. -/
def word? : ListingRow → Option (UInt16 × Word)
  | .word a w _ _ => some (a, w)
  | _ => none

/-- The source column ends as its text does. -/
theorem getLast?_source (n : Nat) (t : Text) :
    (source n t).getLast? = some (t.getLast?.getD ' ') := by
  rw [source, List.append_assoc, List.getLast?_append, List.getLast?_append]
  cases t.getLast? <;> rfl

theorem not_feed_source {n : Nat} {t : Text} (h : '\n' ∉ t) : '\n' ∉ source n t := by
  have hnumber : '\n' ∉ padLeft ' ' 4 (decimal n) := fun hc => by
    rcases mem_padded_decimal hc with hc | hc <;> exact absurd hc (by decide)
  simp [source, h, hnumber]

theorem not_feed_colour {c : Terminal.Colour} {t : Text} (h : '\n' ∉ t) :
    '\n' ∉ Terminal.colour c t := by
  have hsequence : '\n' ∉ Terminal.sequence c.number := by cases c <;> decide
  have hdefault : '\n' ∉ Terminal.sequence 39 := by decide
  simp [Terminal.colour, h, hsequence, hdefault]

/-- A row is some columns and the source column, where a label is green. -/
theorem exists_columns (r : ListingRow) : ∃ columns t, r.text = columns ++ source r.line t ∧
    '\n' ∉ columns ∧ (t = r.shown ∨ t = Terminal.colour .green r.shown) := by
  have haddress : ∀ a, '\n' ∉ addressColumn a := fun a => by
    cases a with
    | none => decide
    | some a => exact fun hc => absurd (hexDigit_of_mem_column hc) (by decide)
  cases r with
  | plain n t => exact ⟨List.replicate 17 ' ', t, rfl, by decide, .inl rfl⟩
  | label a n t =>
    refine ⟨'[' :: (addressColumn a ++ ']' :: List.replicate 13 ' '), _, ?_, ?_, .inr rfl⟩
    · simp [text_label, List.replicate_succ, line, shown]
    · simp [haddress]
  | word a w n t =>
    have hword : '\n' ∉ w.text := fun hc =>
      absurd (List.all_eq_true.1 w.isHexDigit_text _ hc) (by decide)
    refine ⟨'[' :: (addressColumn (some a) ++ ']' :: ' ' ::
      (Terminal.colour (wordColour w) w.text ++ "     ".toList)), t, ?_, ?_, .inl rfl⟩
    · simp [text_word, line]
    · simp [haddress, not_feed_colour hword]

/-- A row is one line, if it shows part of a line, trimmed. -/
theorem physical_text {r : ListingRow} (hfeed : '\n' ∉ r.shown) (htrim : r.shown.trimEnd = r.shown) :
    r.text.physical = [r.text] := by
  obtain ⟨columns, t, htext, hcolumns, ht⟩ := r.exists_columns
  have hfree : '\n' ∉ t := by
    rcases ht with rfl | rfl
    · exact hfeed
    · exact not_feed_colour hfeed
  have hlast : t.getLast?.getD ' ' ≠ '\r' := by
    rcases ht with rfl | rfl
    · have hblank := (Text.trimEnd_eq_self_iff r.shown).1 htrim
      cases h : r.shown.getLast? with
      | none => decide
      | some c =>
        rintro rfl
        exact absurd (hblank _ h) (by decide)
    · have hend : (Terminal.sequence 39).getLast? = some 'm' := by decide
      rw [Terminal.colour, List.getLast?_append, hend, Option.some_or, Option.getD_some]
      decide
  refine Text.physical_of_free (fun c hc hsame => ?_) ?_
  · rw [hsame, htext, List.mem_append] at hc
    exact hc.elim hcolumns (not_feed_source hfree)
  · rw [htext, List.getLast?_append, getLast?_source, Option.some_or]
    exact fun h => hlast (Option.some.inj h)

end ListingRow

/-! ## The rows of one line -/

namespace Listing

open ListingRow (word?)

/-- The rows of a line whose records are `own`. -/
def rowsOf (l : SourceLine) (own : List Record) : List ListingRow :=
  match l.statement with
  | none => [.plain (l.index + 1) l.text.trim]
  | some (.label _) => [.label l.address (l.index + 1) l.text.trim]
  | some _ => own.map fun r => .word r.address r.word (l.index + 1) l.text.trim

section OneLine

variable {l : SourceLine} {own : List Record}

/-- Every row of a line shows that line, with its number. -/
theorem line_of_mem_rowsOf {r : ListingRow} (h : r ∈ rowsOf l own) :
    r.line = l.index + 1 ∧ r.shown = l.text.trim := by
  unfold rowsOf at h
  split at h
  · rw [List.mem_singleton.1 h]
    exact ⟨rfl, rfl⟩
  · rw [List.mem_singleton.1 h]
    exact ⟨rfl, rfl⟩
  · obtain ⟨record, -, rfl⟩ := List.mem_map.1 h
    exact ⟨rfl, rfl⟩

/-- Only a declaration without values has no row. -/
theorem rowsOf_eq_nil_iff (h : own.length = l.width) :
    rowsOf l own = [] ↔ ∃ x, l.statement = some (.data x []) := by
  cases hs : l.statement with
  | none => simp [rowsOf, hs]
  | some s =>
    rw [SourceLine.width_of_statement hs] at h
    cases s with
    | label x => simp [rowsOf, hs]
    | code op param =>
      have hne : own ≠ [] := List.ne_nil_of_length_eq_add_one h
      simp [rowsOf, hs, hne]
    | data x values =>
      have hiff : own = [] ↔ values = [] := by
        rw [← List.length_eq_zero_iff, ← List.length_eq_zero_iff, h]
        rfl
      simp [rowsOf, hs, hiff]

end OneLine

/-! ## The walk -/

/-- **Step**: the line in front takes as many records as it is wide. -/
theorem rows_cons (l : SourceLine) (ls : List SourceLine) (rs : List Record) :
    rows (l :: ls) rs = rowsOf l (rs.take l.width) ++ rows ls (rs.drop l.width) := by
  obtain ⟨i, raw, s, a⟩ := l
  cases s with
  | none => rfl
  | some s => cases s <;> rfl

/-- **Run**: where every line has as many records as it is wide, it takes its own. -/
theorem rows_of_shares {own : SourceLine → List Record} {ls : List SourceLine}
    (h : ∀ l ∈ ls, (own l).length = l.width) :
    rows ls (ls.flatMap own) = ls.flatMap fun l => rowsOf l (own l) := by
  induction ls with
  | nil => rfl
  | cons l ls ih =>
    obtain ⟨hl, hls⟩ := List.forall_mem_cons.1 h
    rw [List.flatMap_cons, rows_cons, ← hl, List.take_left, List.drop_left, ih hls, List.flatMap_cons]

open Layout SourceLine

section OfAssembly

variable {t : Text} {asm : Assembly}

/-- The lines of an assembly, and what the second pass makes of them. -/
theorem shares_of_assemble (h : assemble t = .ok asm) :
    asm.records = asm.layout.lines.flatMap (·.produced asm.layout.map) ∧
      ∀ l ∈ asm.layout.lines, (l.produced asm.layout.map).length = l.width := by
  obtain ⟨hlay, hok⟩ := layout_of_assemble h
  have hp := placed_of_ofText hlay
  exact ⟨hp.eq_flatMap hok, fun l hl => hp.length_produced hok hl⟩

/-- The rows of an assembly are those of its lines, one line behind another. -/
theorem rows_of_assemble (h : assemble t = .ok asm) :
    rows asm.layout.lines asm.records =
      asm.layout.lines.flatMap fun l => rowsOf l (l.produced asm.layout.map) := by
  obtain ⟨hrecords, hlength⟩ := shares_of_assemble h
  rw [hrecords, rows_of_shares hlength]

end OfAssembly

/-- The numbers of the rows never decrease. -/
theorem pairwise_line {t : Text} {asm : Assembly} (h : assemble t = .ok asm) :
    ((rows asm.layout.lines asm.records).map ListingRow.line).Pairwise (· ≤ ·) := by
  rw [rows_of_assemble h, List.pairwise_map, List.pairwise_flatMap]
  constructor
  · intro l _
    refine List.pairwise_of_forall_mem_list fun r hr r' hr' => ?_
    exact Nat.le_of_eq ((line_of_mem_rowsOf hr).1.trans (line_of_mem_rowsOf hr').1.symm)
  · refine (placed_of_ofText (layout_of_assemble h).1).pairwise_index.imp fun hlt r hr r' hr' => ?_
    rw [(line_of_mem_rowsOf hr).1, (line_of_mem_rowsOf hr').1]
    omega

/-- A line of the assembly has a row if and only if it is no declaration without values. -/
theorem exists_row_iff {t : Text} {asm : Assembly} (h : assemble t = .ok asm) {l : SourceLine}
    (hl : l ∈ asm.layout.lines) :
    (∃ r ∈ rows asm.layout.lines asm.records, r.line = l.index + 1 ∧ r.shown = l.text.trim) ↔
      ∀ x, l.statement ≠ some (.data x []) := by
  have hnil := rowsOf_eq_nil_iff ((shares_of_assemble h).2 l hl)
  rw [rows_of_assemble h, ← not_exists, ← hnil]
  constructor
  · rintro ⟨r, hr, hnumber, -⟩
    obtain ⟨l', hl', hr⟩ := List.mem_flatMap.1 hr
    have hindex : l.index = l'.index :=
      Nat.add_right_cancel (hnumber.symm.trans (line_of_mem_rowsOf hr).1)
    obtain rfl := (placed_of_ofText (layout_of_assemble h).1).eq_of_index hl hl' hindex
    exact List.ne_nil_of_mem hr
  · intro hne
    obtain ⟨r, hr⟩ := List.exists_mem_of_ne_nil _ hne
    exact ⟨r, List.mem_flatMap.2 ⟨l, hl, hr⟩, line_of_mem_rowsOf hr⟩

/-- **The lines of a listing.**  For every text that assembles, the numbers of the rows never decrease,
    and every row shows the line of its number, trimmed.  A line has a row if and only if it is no
    declaration without values. -/
theorem lines_of_listing {t : Text} {asm : Assembly} (h : assemble t = .ok asm) :
    let shown := rows asm.layout.lines asm.records
    (shown.map ListingRow.line).Pairwise (· ≤ ·) ∧
    (∀ r ∈ shown, ∃ before raw after, t.lines = before ++ raw :: after ∧
      r.line = before.length + 1 ∧ r.shown = raw.trim) ∧
    ∀ before raw after, t.lines = before ++ raw :: after →
      ((∃ r ∈ shown, r.line = before.length + 1 ∧ r.shown = raw.trim) ↔
        ∀ x, Statement.read raw ≠ .ok (some (.data x []))) := by
  obtain ⟨hlay, -⟩ := layout_of_assemble h
  have htexts := (lines_of_ofText hlay).1
  refine ⟨pairwise_line h, fun r hr => ?_, fun before raw after hraw => ?_⟩
  · rw [rows_of_assemble h, List.mem_flatMap] at hr
    obtain ⟨l, hl, hr⟩ := hr
    obtain ⟨hnumber, hshown⟩ := line_of_mem_rowsOf hr
    obtain ⟨before, after, hlines⟩ := List.append_of_mem hl
    refine ⟨before.map SourceLine.text, l.text, after.map SourceLine.text, ?_, ?_, hshown⟩
    · rw [← htexts, hlines, List.map_append, List.map_cons]
    · rw [hnumber, (line_of_ofText hlay hlines).1, List.length_map]
  · -- the line of the layout that holds this line of the text
    rw [hraw] at htexts
    obtain ⟨front, rest, hlines, rfl, hrest⟩ := List.map_eq_append_iff.1 htexts
    obtain ⟨l, back, rfl, rfl, rfl⟩ := List.map_eq_cons_iff.1 hrest
    have hl : l ∈ asm.layout.lines := by simp [hlines]
    obtain ⟨hindex, hread, -⟩ := line_of_ofText hlay hlines
    rw [hread, List.length_map, ← hindex]
    simpa using exists_row_iff h hl

/-- A declaration without values, and a branch to what stands behind it. -/
def unseenLine : Text := "t DCB 1\ne DCB\nB e\n".toList

/-- The declaration assembles, and no row shows it. -/
theorem lines_of_unseenLine :
    ∃ asm, assemble unseenLine = .ok asm ∧
      ¬ ∃ r ∈ rows asm.layout.lines asm.records, r.line = 2 ∧ r.shown = "e DCB".toList := by
  have hok : (assemble unseenLine).isOk = true := rfl
  cases h : assemble unseenLine with
  | error e => rw [h] at hok; cases hok
  | ok asm =>
    refine ⟨asm, rfl, fun hrow => ?_⟩
    have hiff := (lines_of_listing h).2.2 ["t DCB 1".toList] "e DCB".toList ["B e".toList] (by decide)
    exact hiff.1 hrow "e".toList rfl

end Listing

end Minicore
