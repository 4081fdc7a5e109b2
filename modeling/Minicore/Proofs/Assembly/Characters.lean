/-
  CHARACTERS of a statement — what a line that is a statement can be made of.

  Problem: the image quotes each source line between two `%`.  Nothing escapes a `%` in the line, so
  the quotation can be told apart only if no line that becomes words holds one — although blanks of any
  kind may stand between its parts, lone carriage returns among them.

  1. **Nothing is lost** — a reader cuts a line at blanks and commas and trims the pieces.  What it
     drops on the way is a blank or a comma, so every other character is in some piece
     (`mem_trim_of_not_blank`, `mem_field`, `mem_word`).

  2. **Every piece is looked at** — a mnemonic, a register, a symbol or a literal has letters, digits,
     underscores and at most a sign; the brackets and the `#` of an operand are the only other
     characters (`Operand.written_of_read`).

  3. **Spec lemma** — `Statement.written_of_read`: a line that reads as a statement has only such
     characters, and `%` is none of them.
-/
import Minicore.Assembly.Statement
import Minicore.Proofs.Text.Numerals

namespace Minicore

/-! ## The characters -/

/-- A character that a statement can be written with. -/
def isWritten (c : Char) : Bool :=
  isBlank c || Text.continuesIdentifier c || "[]#,+".toList.contains c

theorem isWritten_of_blank {c : Char} (h : isBlank c = true) : isWritten c = true := by
  simp [isWritten, h]

theorem isWritten_of_continues {c : Char} (h : Text.continuesIdentifier c = true) :
    isWritten c = true := by
  simp [isWritten, h]

theorem not_isWritten_percent : isWritten '%' = false := by decide

namespace Text

/-- The text has no other characters than those of statements. -/
def written (t : Text) : Bool := t.all isWritten

variable {t : Text}

theorem written_iff : t.written = true ↔ ∀ c ∈ t, isWritten c = true := List.all_eq_true

theorem written_of_continues (h : t.all continuesIdentifier = true) : t.written = true :=
  written_iff.2 fun c hc => isWritten_of_continues (List.all_eq_true.1 h c hc)

/-! ## Nothing but blanks and commas is lost -/

/-- Trimming adds nothing. -/
theorem mem_of_mem_trim {c : Char} (hc : c ∈ t.trim) : c ∈ t := by
  obtain ⟨behind, -, htrim⟩ := exists_trimEnd_append t.trimStart
  have hstart : c ∈ t.trimStart := by
    rw [htrim]
    exact List.mem_append_left _ hc
  exact (List.dropWhile_suffix isBlank).subset hstart

/-- What is no blank survives trimming. -/
theorem mem_trim_of_not_blank {c : Char} (hc : c ∈ t) (hb : isBlank c = false) : c ∈ t.trim := by
  obtain ⟨behind, hbehind, htrim⟩ := exists_trimEnd_append t.trimStart
  have hstart : c ∈ t.trimStart := by
    have hsplit : t.takeWhile isBlank ++ t.trimStart = t := List.takeWhile_append_dropWhile
    rw [← hsplit, List.mem_append] at hc
    rcases hc with hc | hc
    · rw [List.all_eq_true.1 List.all_takeWhile c hc] at hb
      cases hb
    · exact hc
  rw [htrim, List.mem_append] at hstart
  rcases hstart with hc | hc
  · exact hc
  · rw [List.all_eq_true.1 hbehind c hc] at hb
    cases hb

/-- A text is written if it is after trimming. -/
theorem written_of_trim (h : t.trim.written = true) : t.written = true := by
  refine written_iff.2 fun c hc => ?_
  cases hb : isBlank c with
  | true => exact isWritten_of_blank hb
  | false => exact written_iff.1 h c (mem_trim_of_not_blank hc hb)

/-- A text is written if all its fields are. -/
theorem written_of_fields (h : ∀ f ∈ t.fields, f.written = true) : t.written = true := by
  refine written_iff.2 fun c hc => ?_
  rw [← join_fields t] at hc
  rcases mem_join hc with hcomma | ⟨f, hf, hc⟩
  · rw [List.mem_singleton.1 hcomma]
    decide
  · exact written_iff.1 (h f hf) c hc

/-- What is no blank stands in a word. -/
theorem mem_word {c : Char} (hc : c ∈ t) (hb : isBlank c = false) : ∃ w ∈ t.words, c ∈ w := by
  induction t with
  | nil => cases hc
  | cons d t ih =>
    obtain ⟨field, rest, hfields⟩ := List.exists_cons_of_ne_nil (splitBy_ne_nil isBlank t)
    unfold words at ih ⊢
    rw [splitBy_cons]
    rw [hfields] at ih ⊢
    cases hd : isBlank d with
    | true =>
      rcases List.mem_cons.1 hc with rfl | hc
      · rw [hd] at hb
        cases hb
      · simpa using ih hc
    | false =>
      simp only [Bool.false_eq_true, if_false, List.modifyHead_cons]
      rcases List.mem_cons.1 hc with rfl | hc
      · exact ⟨c :: field, by simp, List.mem_cons_self⟩
      · obtain ⟨w, hw, hcw⟩ := ih hc
        rw [List.mem_filter, List.mem_cons] at hw
        rcases hw with ⟨rfl | hw, hne⟩
        · exact ⟨d :: w, by simp, List.mem_cons_of_mem _ hcw⟩
        · exact ⟨w, List.mem_filter.2 ⟨List.mem_cons_of_mem _ hw, hne⟩, hcw⟩

/-- A text is written if all its words are. -/
theorem written_of_words (h : ∀ w ∈ t.words, w.written = true) : t.written = true := by
  refine written_iff.2 fun c hc => ?_
  cases hb : isBlank c with
  | true => exact isWritten_of_blank hb
  | false =>
    obtain ⟨w, hw, hcw⟩ := mem_word hc hb
    exact written_iff.1 (h w hw) c hcw

end Text

/-! ## Names -/

theorem Mnemonic.written_name (m : Mnemonic) : m.name.written = true := by
  cases m <;> decide

theorem Register.written_name (r : Register) : r.name.written = true := by
  cases r <;> decide

theorem Text.written_of_isSymbol {t : Text} (h : t.isSymbol = true) : t.written = true :=
  written_of_continues (all_continues_of_isIdentifier (isIdentifier_of_isSymbol h))

/-! ## Literals -/

/-- A digit of any radix is a letter or a digit. -/
theorem Numeral.continues_of_digitValue {c : Char} {d : Nat} (h : digitValue c = some d) :
    Text.continuesIdentifier c = true := by
  have hrange : c.isDigit = true ∨ c.isLower = true ∨ c.isUpper = true := by
    unfold digitValue at h
    split at h
    · rename_i hc
      exact .inl (Bool.and_eq_true_iff.2 ⟨decide_eq_true hc.1, decide_eq_true hc.2⟩)
    · split at h
      · rename_i hc
        exact .inr (.inl (Bool.and_eq_true_iff.2 ⟨decide_eq_true hc.1, decide_eq_true hc.2⟩))
      · split at h
        · rename_i hc
          exact .inr (.inr (decide_eq_true hc))
        · cases h
  show (c.isUpper || c.isLower || c.isDigit || c == '_') = true
  rcases hrange with h | h | h <;> simp [h]

theorem Numeral.written_of_accumulate {radix v n : Nat} {t : Text}
    (h : accumulate radix v t = .ok n) : t.written = true := by
  refine Text.written_of_continues ?_
  induction t generalizing v with
  | nil => rfl
  | cons c t ih =>
    simp only [accumulate] at h
    split at h
    · cases h
    · rename_i d hd
      split at h
      · obtain ⟨hvalue, -⟩ := Option.filter_eq_some_iff.1 hd
        rw [List.all_cons, continues_of_digitValue hvalue, ih h]
        rfl
      · cases h

theorem Numeral.written_of_readWord {radix : Nat} {t : Text} {v : UInt16}
    (h : readWord radix t = .ok v) : t.written = true := by
  unfold readWord at h
  split at h
  · cases h
  · cases h
  · cases h
  · cases hacc : accumulate radix 0 (dropPlus t) with
    | error e => rw [hacc] at h; cases h
    | ok n =>
      have hdrop := written_of_accumulate hacc
      unfold dropPlus at hdrop
      -- the sign that was dropped is one that a statement may hold
      split at hdrop
      · rw [Text.written, List.all_cons]
        exact Bool.and_eq_true_iff.2 ⟨by decide, hdrop⟩
      · exact hdrop

/-- The mark of the radix is written with letters and digits. -/
theorem Literal.written_of_read {t : Text} {v : UInt16} (h : read t = .ok v) : t.written = true := by
  have hrest := Numeral.written_of_readWord h
  unfold radixAndRest at hrest
  split at hrest
  all_goals simpa [Text.written, isWritten, Text.continuesIdentifier] using hrest

/-! ## Operands -/

namespace Operand

theorem written_of_readValue {t : Text} {o : Operand} (h : readValue t = .ok (some o)) :
    t.written = true := by
  unfold readValue at h
  split at h
  · cases h
  · rename_i c rest
    split at h
    · cases hread : Literal.read (c :: rest) with
      | error e => rw [hread] at h; cases h
      | ok v => exact Literal.written_of_read hread
    · rw [Except.ok.injEq, Option.ite_none_right_eq_some] at h
      exact Text.written_of_isSymbol h.1

/-- **What an operand is written with.** -/
theorem written_of_read {t : Text} {o : Operand} (h : read t = .ok (some o)) : t.written = true := by
  unfold read at h
  split at h
  · rename_i r hr
    rw [Register.ofName?_eq_some_iff.1 hr]
    exact r.written_name
  · split at h
    · -- a register between brackets, with blanks around it
      rename_i inner hinner
      rw [Except.ok.injEq, Option.map_eq_some_iff] at h
      obtain ⟨r, hr, -⟩ := h
      have hwritten : inner.written = true := by
        refine Text.written_of_trim ?_
        rw [Register.ofName?_eq_some_iff.1 hr]
        exact r.written_name
      unfold bracketed? at hinner
      split at hinner
      · rename_i rest
        rw [Option.ite_none_right_eq_some] at hinner
        obtain ⟨hlast, hinner⟩ := hinner
        obtain ⟨between, rfl⟩ := List.getLast?_eq_some_iff.1 hlast
        rw [List.dropLast_concat, Option.some.injEq] at hinner
        rw [Text.written, List.all_cons, List.all_append, hinner, ← Text.written, hwritten]
        decide
      · cases hinner
    · split at h
      · rename_i v
        rw [Text.written, List.all_cons]
        exact Bool.and_eq_true_iff.2 ⟨by decide, written_of_readValue h⟩
      · rw [Except.ok.injEq, Option.ite_none_right_eq_some] at h
        exact Text.written_of_isSymbol h.1

end Operand

/-! ## Lines -/

namespace Catalog

theorem written_of_readOperands {tokens : List Text} {operands : List Operand}
    (h : readOperands tokens = .ok (some operands)) : ∀ token ∈ tokens, token.written = true := by
  induction tokens generalizing operands with
  | nil => simp
  | cons token tokens ih =>
    unfold readOperands at h
    split at h
    · cases h
    · cases h
    · rename_i hread
      split at h
      · cases h
      · cases h
      · rename_i hrest
        exact List.forall_mem_cons.2 ⟨Operand.written_of_read hread, ih hrest⟩

/-- The tokens have all that stands behind the mnemonic, but for blanks and commas. -/
theorem written_of_tokens {rest : Text} (h : ∀ token ∈ tokens rest, token.written = true) :
    rest.written = true := by
  unfold tokens at h
  split at h
  · rename_i hempty
    rw [List.isEmpty_iff.1 hempty]
    rfl
  · exact Text.written_of_fields fun f hf =>
      Text.written_of_trim (h _ (List.mem_map_of_mem hf))

/-- **An instruction line**: its first word is a mnemonic, and each operand behind it was read. -/
theorem written_of_classify {c : Catalog} {line : Text} {m : Match}
    (h : c.classify line = .ok (some m)) : line.written = true := by
  refine Text.written_of_trim ?_
  unfold classify at h
  extract_lets source at h
  split at h
  · cases h
  · rename_i mnemonic hname
    split at h
    · cases h
    · split at h
      · cases h
      · cases h
      · rename_i hread
        have hhead : (line.trim.headAndRest.1).written = true := by
          rw [Mnemonic.ofName?_eq_some_iff.1 hname]
          exact mnemonic.written_name
        have hrest := written_of_tokens (written_of_readOperands hread)
        have hsplit : line.trim.takeWhile (fun c => !isBlank c) ++
            line.trim.dropWhile (fun c => !isBlank c) = line.trim := List.takeWhile_append_dropWhile
        rw [← hsplit, Text.written, List.all_append]
        exact Bool.and_eq_true_iff.2 ⟨hhead, Text.written_of_trim hrest⟩

end Catalog

namespace Statement

/-- When a whole list was read, each of its values was. -/
theorem readValue_of_mapM {values : List Text} {vs : List UInt16}
    (h : values.mapM readValue = .ok vs) : ∀ v ∈ values, ∃ w, readValue v = .ok w := by
  induction values generalizing vs with
  | nil => simp
  | cons v values ih =>
    rw [List.mapM_cons] at h
    cases hv : readValue v with
    | error e => rw [hv] at h; cases h
    | ok w =>
      cases hrest : values.mapM readValue with
      | error e => rw [hv, hrest] at h; cases h
      | ok ws => exact List.forall_mem_cons.2 ⟨⟨w, hv⟩, ih hrest⟩

theorem written_of_readValue {t : Text} {v : UInt16} (h : readValue t = .ok v) : t.written = true := by
  unfold readValue at h
  split at h
  · rename_i hread
    exact Literal.written_of_read hread
  · cases h

theorem written_of_readValues {list : Text} {vs : List UInt16} (h : readValues list = .ok vs) :
    list.written = true := by
  unfold readValues at h
  split at h
  · rename_i hblank
    exact Text.written_iff.2 fun c hc => isWritten_of_blank (List.all_eq_true.1 hblank c hc)
  · refine Text.written_of_fields fun f hf => Text.written_of_trim ?_
    obtain ⟨w, hw⟩ := readValue_of_mapM h f.trim (List.mem_map_of_mem hf)
    exact written_of_readValue hw

/-- **Spec lemma**: a line that is a statement has no other characters than those of statements. -/
theorem written_of_read {line : Text} {s : Statement} (h : read line = .ok (some s)) :
    line.written = true := by
  unfold read at h
  split at h
  · cases h
  · rename_i hclassify
    exact Catalog.written_of_classify hclassify
  · -- a label or a declaration, from its words
    refine Text.written_of_words ?_
    unfold ofWords at h
    split at h
    · rename_i name hwords
      rw [Except.ok.injEq, Option.ite_none_right_eq_some] at h
      rw [hwords]
      exact List.forall_mem_singleton.2 (Text.written_of_isSymbol h.1)
    · rename_i name keyword values hwords
      rw [hwords]
      split at h
      · rename_i hhead
        rw [Bool.and_eq_true, beq_iff_eq] at hhead
        obtain ⟨rfl, hsymbol⟩ := hhead
        cases hvalues : readValues (Text.join " " values) with
        | error e => rw [hvalues] at h; cases h
        | ok vs =>
          refine List.forall_mem_cons.2 ⟨Text.written_of_isSymbol hsymbol,
            List.forall_mem_cons.2 ⟨by decide, fun w hw => ?_⟩⟩
          exact Text.written_iff.2 fun c hc =>
            Text.written_iff.1 (written_of_readValues hvalues) c (Text.mem_join_of_mem hw hc)
      · cases h
    · cases h

end Statement

end Minicore
