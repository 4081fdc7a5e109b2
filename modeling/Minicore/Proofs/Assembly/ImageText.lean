/-
  The IMAGE TEXT — an image holds its records, all of them and nothing else.

  Problem: an image is a text, and a text can be read in more ways than one when a field is wider than
  its place or a comment holds the character that ends it.  Neither happens to the image of an assembly.

  1. **Digits** — a number below `16 ^ k` has exactly `k` padded digits, and they read as the number
     (`length_hexPadded`, `readDigits_hexPadded`).  Addresses are below 256 since the image is no longer,
     and an opcode is one byte.

  2. **Words** — both kinds of word are two digits and four digits, with a zero byte for data
     (`Word.text_eq`).  No opcode is zero, so a word is read back as what it was (`Word.ofText?_text`).

  3. **Comments** — a record comes from a line that is a statement, and such a line has neither a `%`
     nor a line feed (`comment_of_assemble`): the first `%` behind the opening one is the closing one.

  4. **Lines** — one record is one line, so the lines of the image are the lines that were written
     (`lines_image`), and reading them gives the records in order (`records_of_image`).
-/
import Minicore.Assembly.ImageReader
import Minicore.Proofs.Assembly.Characters
import Minicore.Proofs.Assembly.Records

namespace Minicore

/-! ## Digits -/

namespace Numeral

/-- The padding is a digit as well. -/
theorem all_hexPadded {p : Char → Bool} (h : ∀ d : Fin 16, p (Nat.digitChar d.val).toUpper = true)
    (k n : Nat) : (hexPadded k n).all p = true := by
  have hzero : p '0' = true := h 0
  rw [hexPadded, padLeft, List.all_append, all_hex h n, Bool.and_true]
  exact List.all_eq_true.2 fun c hc => by rw [List.eq_of_mem_replicate hc, hzero]

theorem isHexDigit_hexPadded (k n : Nat) : (hexPadded k n).all isHexDigit = true :=
  all_hexPadded (by decide) k n

theorem length_hexPadded {k n : Nat} (hk : 0 < k) (h : n < 16 ^ k) : (hexPadded k n).length = k := by
  have hlength : (hex n).length ≤ k := by
    rw [hex, List.length_map]
    exact (Nat.length_toDigits_le_iff (by omega) hk).2 h
  rw [hexPadded, padLeft, List.length_append, List.length_replicate]
  omega

/-- Zeros in front count nothing. -/
theorem accumulate_zeros (k : Nat) : accumulate 16 0 (List.replicate k '0') = .ok 0 := by
  induction k with
  | zero => rfl
  | succ k ih =>
    rw [List.replicate_succ]
    exact ih

/-- **Padded digits** read as the word that they pad. -/
theorem readDigits_hexPadded {n : Nat} (h : n ≤ maxWord) (k : Nat) :
    readDigits (hexPadded k n) = some (UInt16.ofNat n) := by
  have hne : hexPadded k n ≠ [] := fun hnil =>
    hex_ne_nil n (List.append_eq_nil_iff.1 hnil).2
  have hread : readWord 16 (hexPadded k n) = .ok (UInt16.ofNat n) := by
    rw [readWord_of_continues (all_hexPadded (by decide) k n) hne, hexPadded, padLeft,
      accumulate_append (accumulate_zeros _), accumulate_hex h]
    rfl
  rw [readDigits, if_pos (isHexDigit_hexPadded k n), hread]
  rfl

/-- Where four digits are enough, two more in front are zeros. -/
theorem hexPadded_word (v : UInt16) : hexPadded 6 v.toNat = hexPadded 2 0 ++ hexPadded 4 v.toNat := by
  have hlength : (hex v.toNat).length ≤ 4 := by
    have := v.toNat_lt
    rw [hex, List.length_map]
    exact (Nat.length_toDigits_le_iff (by omega) (by omega)).2 (by omega)
  have hzeros : hexPadded 2 0 = List.replicate 2 '0' := by decide
  rw [hzeros, hexPadded, hexPadded, padLeft, padLeft, ← List.append_assoc, List.replicate_append_replicate]
  congr 2
  omega

end Numeral

/-! ## Words -/

namespace Word

/-- The opcode byte: zero for data. -/
def byte : Word → Nat
  | .instruction op _ => op.code
  | .data _ => 0

/-- What stands behind the byte. -/
def value : Word → UInt16
  | .instruction _ operand => operand
  | .data value => value

theorem byte_lt (w : Word) : w.byte < 16 ^ 2 := by
  cases w with
  | instruction op _ =>
    have := op.code_bounds.2
    show op.code < 256
    omega
  | data _ => exact Nat.zero_lt_succ _

/-- Both kinds are two digits and four. -/
theorem text_eq (w : Word) :
    w.text = Numeral.hexPadded 2 w.byte ++ Numeral.hexPadded 4 w.value.toNat := by
  cases w with
  | instruction op operand => rfl
  | data value => exact Numeral.hexPadded_word value

theorem length_text (w : Word) : w.text.length = 6 := by
  have hvalue := w.value.toNat_lt
  rw [text_eq, List.length_append, Numeral.length_hexPadded (by omega) w.byte_lt,
    Numeral.length_hexPadded (by omega) (by omega)]

theorem isHexDigit_text (w : Word) : w.text.all Numeral.isHexDigit = true := by
  rw [text_eq, List.all_append, Numeral.isHexDigit_hexPadded, Numeral.isHexDigit_hexPadded]
  rfl

/-- **A written word is read back**: zero is no opcode, and every opcode is that of its code. -/
theorem ofText?_text (w : Word) : ofText? w.text = some w := by
  have hlength := Numeral.length_hexPadded (by omega) w.byte_lt
  have hbyte : w.byte < 256 := w.byte_lt
  have hm : maxWord = 65535 := rfl
  have hnat : (UInt16.ofNat w.byte).toNat = w.byte := toNat_ofNat_of_le (by omega)
  unfold ofText?
  rw [text_eq, List.take_left' hlength, List.drop_left' hlength,
    Numeral.readDigits_hexPadded (by omega), Numeral.readDigits_hexPadded (Numeral.toNat_le_maxWord _),
    UInt16.ofNat_toNat]
  simp only [hnat]
  cases w with
  | data value => rfl
  | instruction op operand =>
    have hne : UInt16.ofNat op.code ≠ 0 := fun h => by
      have hzero : op.code = 0 := hnat.symm.trans (congrArg UInt16.toNat h)
      exact absurd op.code_bounds.1 (by omega)
    show (if UInt16.ofNat op.code = 0 then _ else _) = _
    rw [if_neg hne, show Opcode.ofCode? (byte (.instruction op operand)) = some op from
      Opcode.ofCode?_eq_some_iff.2 rfl]
    rfl

end Word

/-! ## Records -/

namespace Record

variable {r : Record}

/-- A comment without a `%` ends at the first one. -/
theorem commentOf?_text {comment : Text} (h : '%' ∉ comment) :
    commentOf? (comment ++ " %".toList) = some comment := by
  have hfree : ∀ c ∈ comment ++ [' '], (c != '%') = true := fun c hc => by
    rcases List.mem_append.1 hc with hc | hc
    · exact bne_iff_ne.2 fun hsame => h (hsame ▸ hc)
    · rw [List.mem_singleton.1 hc]
      decide
  have hsplit : comment ++ " %".toList = (comment ++ [' ']) ++ ['%'] := by simp
  have htake : (comment ++ " %".toList).takeWhile (· != '%') = comment ++ [' '] := by
    rw [hsplit, List.takeWhile_append_of_pos hfree]
    simp
  have hdrop : (comment ++ " %".toList).dropWhile (· != '%') = ['%'] := by
    rw [hsplit, List.dropWhile_append_of_pos hfree]
    simp
  unfold commentOf?
  simp only [htake, hdrop]
  rw [if_pos ⟨trivial, List.getLast?_concat⟩, List.dropLast_concat]

/-- The address digits of a record inside the image. -/
theorem length_address (h : r.address.toNat < imageDepth) :
    (Numeral.hexPadded 2 r.address.toNat).length = 2 :=
  Numeral.length_hexPadded (by omega) h

/-- **A written record is read back**, if it is inside the image and its comment holds no `%`. -/
theorem ofText?_text (ha : r.address.toNat < imageDepth) (hc : '%' ∉ r.comment) :
    ofText? r.text = some r := by
  have hd : imageDepth = 256 := rfl
  have hm : maxWord = 65535 := rfl
  have haddress := length_address ha
  have hword := r.word.length_text
  -- the places at which a line is cut
  have htext : r.text = Numeral.hexPadded 2 r.address.toNat ++
      (" : ".toList ++ (r.word.text ++ (";\t% ".toList ++ (r.comment ++ " %".toList)))) := by
    simp [text]
  generalize hbehind : r.comment ++ " %".toList = behind at htext
  generalize hafter : ";\t% ".toList ++ behind = after at htext
  generalize hrest : r.word.text ++ after = rest at htext
  have h2 : r.text.drop 2 = " : ".toList ++ rest := by
    rw [htext, List.drop_left' haddress]
  have h5 : r.text.drop 5 = rest := by
    rw [show 5 = 2 + 3 from rfl, ← List.drop_drop, h2]
    rfl
  have h11 : r.text.drop 11 = after := by
    rw [show 11 = 5 + 6 from rfl, ← List.drop_drop, h5, ← hrest, List.drop_left' hword]
  have h15 : r.text.drop 15 = behind := by
    rw [show 15 = 11 + 4 from rfl, ← List.drop_drop, h11, ← hafter]
    rfl
  have htake : r.text.take 2 = Numeral.hexPadded 2 r.address.toNat := by
    rw [htext, List.take_left' haddress]
  have htakeWord : (r.text.drop 5).take 6 = r.word.text := by
    rw [h5, ← hrest, List.take_left' hword]
  have hmarks : (r.text.drop 2).take 3 = " : ".toList ∧ (r.text.drop 11).take 4 = ";\t% ".toList := by
    rw [h2, h11, ← hafter]
    exact ⟨rfl, rfl⟩
  unfold ofText?
  rw [htake, htakeWord, h15, ← hbehind, Numeral.readDigits_hexPadded (by omega), Word.ofText?_text,
    commentOf?_text hc]
  simp only [if_pos hmarks, UInt16.ofNat_toNat]

/-- What a record has to be so that its line can be read. -/
structure Legible (r : Record) : Prop where
  inside : r.address.toNat < imageDepth
  percent : '%' ∉ r.comment
  feed : '\n' ∉ r.comment

/-- A legible record is one line. -/
theorem Legible.physical_text (h : r.Legible) : r.text.physical = [r.text] := by
  have hdigits : ∀ {t : Text}, t.all Numeral.isHexDigit = true → '\n' ∉ t := fun ht hc =>
    absurd (List.all_eq_true.1 ht _ hc) (by decide)
  have hfree : ∀ c ∈ r.text, c ≠ '\n' := by
    rintro c hc rfl
    simp only [text, List.mem_append] at hc
    rcases hc with ((((hc | hc) | hc) | hc) | hc) | hc
    · exact hdigits (Numeral.isHexDigit_hexPadded _ _) hc
    · exact absurd hc (by decide)
    · exact hdigits r.word.isHexDigit_text hc
    · exact absurd hc (by decide)
    · exact h.feed hc
    · exact absurd hc (by decide)
  refine Text.physical_of_free hfree ?_
  rw [text, List.getLast?_append, show " %".toList.getLast? = some '%' from rfl, Option.some_or]
  decide

end Record

/-! ## Images -/

namespace Image

open Record (Legible)

theorem mapM_ofText? {rs : List Record} (h : ∀ r ∈ rs, Legible r) :
    (rs.map Record.text).mapM Record.ofText? = some rs := by
  induction rs with
  | nil => rfl
  | cons r rs ih =>
    obtain ⟨hr, hrs⟩ := List.forall_mem_cons.1 h
    rw [List.map_cons, List.mapM_cons, Record.ofText?_text hr.inside hr.percent, ih hrs]
    rfl

/-- The lines of the image are the lines that were written. -/
theorem lines_text {rs : List Record} (h : ∀ r ∈ rs, Legible r) : (text rs).lines = lines rs := by
  have hheader : header.flatMap Text.physical = header := by decide
  have hfooter : footer.flatMap Text.physical = footer := by decide
  have hrecords : (rs.map Record.text).flatMap Text.physical = rs.map Record.text := by
    induction rs with
    | nil => rfl
    | cons r rs ih =>
      obtain ⟨hr, hrs⟩ := List.forall_mem_cons.1 h
      rw [List.map_cons, List.flatMap_cons, hr.physical_text, ih hrs]
      rfl
  show (Text.unlines (lines rs)).lines = lines rs
  rw [Text.lines_unlines, lines, List.flatMap_append, List.flatMap_append, hheader, hfooter, hrecords]

/-- **Images are read back**, if all their records are legible. -/
theorem records?_text {rs : List Record} (h : ∀ r ∈ rs, Legible r) : records? (text rs) = some rs := by
  have hmarks : (lines rs).take header.length = header ∧
      (lines rs).getLast? = some "END;".toList := by
    refine ⟨?_, List.getLast?_concat⟩
    rw [lines, List.append_assoc, List.take_left]
  unfold records?
  rw [lines_text h]
  simp only [if_pos hmarks]
  rw [lines, List.append_assoc, List.drop_left, footer, List.dropLast_concat, mapM_ofText? h]

end Image

/-! ## The image of an assembly -/

namespace Layout

open SourceLine

/-- The comment of a record is a line of the text, trimmed, and the line is a statement. -/
theorem comment_of_assemble {t : Text} {asm : Assembly} (h : assemble t = .ok asm) {r : Record}
    (hr : r ∈ asm.records) :
    ∃ line ∈ t.lines, (∃ s, Statement.read line = .ok (some s)) ∧ r.comment = line.trim := by
  obtain ⟨hlay, hok⟩ := layout_of_assemble h
  have hp := placed_of_ofText hlay
  obtain ⟨htexts, hreads⟩ := lines_of_ofText hlay
  have hok' : encodeLines asm.layout.map (UInt16.ofNat 0) asm.layout.lines = .ok asm.records := hok
  rw [hp.eq_flatMap hok', List.mem_flatMap] at hr
  obtain ⟨line, hl, hr⟩ := hr
  have hread := hreads line hl
  obtain ⟨before, after, hlines⟩ := List.append_of_mem hl
  rw [hlines] at hp hok'
  obtain ⟨-, hcomments, -⟩ := hp.produced_spec hok'
  have hcomment : r.comment ∈ List.replicate line.width line.comment :=
    hcomments ▸ List.mem_map_of_mem hr
  refine ⟨line.text, htexts ▸ List.mem_map_of_mem hl, ?_, List.eq_of_mem_replicate hcomment⟩
  cases hs : line.statement with
  | none =>
    rw [produced_skip hs] at hr
    cases hr
  | some s => exact ⟨s, hs ▸ hread⟩

/-- **Every record of an assembly is legible.** -/
theorem legible_of_assemble {t : Text} {asm : Assembly} (h : assemble t = .ok asm) :
    ∀ r ∈ asm.records, r.Legible := by
  intro r hr
  obtain ⟨hlay, hok⟩ := layout_of_assemble h
  obtain ⟨line, hline, ⟨s, hread⟩, hcomment⟩ := comment_of_assemble h hr
  have haddress : r.address.toNat ∈ List.range' 0 (words asm.layout.lines) :=
    (placed_of_ofText hlay).addresses hok ▸ List.mem_map_of_mem hr
  have hsize := size_le_of_ofText hlay
  rw [size_of_ofText hlay] at hsize
  rw [List.mem_range'_1] at haddress
  -- the comment is part of the line
  have hpart : ∀ c ∈ r.comment, c ∈ line := fun c hc => by
    rw [hcomment] at hc
    exact Text.mem_of_mem_trim hc
  refine ⟨by omega, fun hc => ?_, fun hc => Text.not_mem_of_mem_lines hline (hpart _ hc)⟩
  have hwritten := Text.written_iff.1 (Statement.written_of_read hread) _ (hpart _ hc)
  rw [not_isWritten_percent] at hwritten
  cases hwritten

/-- **The image decodes to the assembly.**  For every text that assembles, the image is six header
    lines, one line per record and the end line, each with a line feed behind it; a record line has two
    digits of address and six of word, all upper case, and its comment holds neither a `%` nor a line
    feed; and reading the image gives the records of the assembly in order. -/
theorem records_of_image {t : Text} {asm : Assembly} (h : assemble t = .ok asm) :
    let lines := ["DEPTH = 256;".toList, "WIDTH = 24;".toList, "ADDRESS_RADIX = HEX;".toList,
      "DATA_RADIX = HEX;".toList, "CONTENT".toList, "BEGIN".toList] ++
      asm.records.map Record.text ++ ["END;".toList]
    asm.image = Text.unlines lines ∧ asm.image.lines = lines ∧
    (∀ r ∈ asm.records, ∃ address word,
      r.text = address ++ " : ".toList ++ word ++ ";\t% ".toList ++ r.comment ++ " %".toList ∧
        address.length = 2 ∧ address.all Numeral.isHexDigit = true ∧
        word.length = 6 ∧ word.all Numeral.isHexDigit = true ∧
        '%' ∉ r.comment ∧ '\n' ∉ r.comment) ∧
    Image.records? asm.image = some asm.records := by
  have hlegible := legible_of_assemble h
  refine ⟨rfl, Image.lines_text hlegible, fun r hr => ?_, Image.records?_text hlegible⟩
  obtain ⟨hinside, hpercent, hfeed⟩ := hlegible r hr
  exact ⟨_, _, rfl, Record.length_address hinside, Numeral.isHexDigit_hexPadded _ _,
    r.word.length_text, r.word.isHexDigit_text, hpercent, hfeed⟩

/-- A symbol, a number, an instruction without an operand, a declaration behind a tab and a carriage
    return, and a skipped line with a `%` in it. -/
def quotedLines : Text := "B end\n% no line %\nCMP R0, R3\n\tt DCB 0x1F,\r 65535\nend\n".toList

theorem records_of_quotedLines :
    ∃ asm, assemble quotedLines = .ok asm ∧ Image.records? asm.image = some asm.records ∧
      asm.records.map Record.word =
        [.instruction .b 4, .instruction .cmp 0, .data 0x1F, .data 65535] := by
  have hwords : (assemble quotedLines).map (fun asm => asm.records.map Record.word) =
      .ok [.instruction .b 4, .instruction .cmp 0, .data 0x1F, .data 65535] := rfl
  cases h : assemble quotedLines with
  | error e => rw [h] at hwords; cases hwords
  | ok asm =>
    rw [h] at hwords
    exact ⟨asm, rfl, (records_of_image h).2.2.2, Except.ok.inj hwords⟩

end Layout

end Minicore
