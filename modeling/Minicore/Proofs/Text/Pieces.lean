/-
  PIECES — taking apart a text that was put together.

  Problem: a generated text is a row of lines, a line is a mnemonic with operands between commas, and
  every reader starts by cutting.  What a reader finds is what the writer put in, as long as the
  pieces do not contain the characters that separate them.

  1. **Cutting** — `splitBy` is core's `List.splitOnP` (`splitBy_eq_splitOnP`), so its equations are
     core's: a cut at a separator (`splitBy_append_cons`), and none in a text without one
     (`splitBy_of_free`).

  2. **Trimming** — blanks in front go (`trim_indented`), and whether anything is trimmed behind is
     decided by the last part (`trimEnd_append`).

  3. **Lines** — a row of terminated texts has the lines of its texts, in order (`lines_unlines`); a
     text without line feeds is one line (`physical_of_free`).
-/
import Minicore.Text.Blank

namespace Minicore

namespace Text

variable {p : Char → Bool} {t : Text}

/-! ## Cutting -/

theorem splitBy_cons (p : Char → Bool) (c : Char) (t : Text) :
    splitBy p (c :: t) = if p c then [] :: splitBy p t else (splitBy p t).modifyHead (c :: ·) := by
  obtain ⟨field, rest, h⟩ := List.exists_cons_of_ne_nil (splitBy_ne_nil p t)
  rw [h]
  unfold splitBy at h ⊢
  rw [List.foldr_cons, h]
  rfl

/-- The cut is the one of the standard library. -/
theorem splitBy_eq_splitOnP (p : Char → Bool) (t : Text) : splitBy p t = t.splitOnP p := by
  induction t with
  | nil => rw [splitBy_nil, List.splitOnP_nil]
  | cons c t ih => rw [splitBy_cons, List.splitOnP_cons_eq_if_modifyHead, ih]

/-- A separator cuts: the fields before it, then the fields behind it. -/
theorem splitBy_append_cons {c : Char} (hc : p c = true) (a b : Text) :
    splitBy p (a ++ c :: b) = splitBy p a ++ splitBy p b := by
  simp only [splitBy_eq_splitOnP]
  exact List.splitOnP_append_cons a b hc

/-- Without a separator there is one field. -/
theorem splitBy_of_free (h : ∀ c ∈ t, p c = false) : splitBy p t = [t] := by
  rw [splitBy_eq_splitOnP]
  exact List.splitOnP_eq_singleton h

/-- A field holds no separator. -/
theorem not_of_mem_splitBy {f : Text} (hf : f ∈ splitBy p t) : ∀ c ∈ f, p c = false := by
  induction t generalizing f with
  | nil =>
    rw [List.mem_singleton.1 hf]
    simp
  | cons c t ih =>
    obtain ⟨field, rest, h⟩ := List.exists_cons_of_ne_nil (splitBy_ne_nil p t)
    rw [splitBy_cons] at hf
    rw [h] at hf ih
    split at hf
    · rcases List.mem_cons.1 hf with rfl | hf
      · simp
      · exact ih hf
    · rename_i hc
      rcases List.mem_cons.1 hf with rfl | hf
      · exact List.forall_mem_cons.2 ⟨by simpa using hc, ih List.mem_cons_self⟩
      · exact ih (List.mem_cons_of_mem _ hf)

/-- What stands in front without a separator belongs to the first field. -/
theorem splitBy_append {a : Text} (ha : ∀ c ∈ a, p c = false) (t : Text) :
    splitBy p (a ++ t) = (splitBy p t).modifyHead (a ++ ·) := by
  induction a with
  | nil =>
    obtain ⟨field, rest, h⟩ := List.exists_cons_of_ne_nil (splitBy_ne_nil p t)
    rw [List.nil_append, h]
    rfl
  | cons c a ih =>
    obtain ⟨field, rest, h⟩ := List.exists_cons_of_ne_nil (splitBy_ne_nil p t)
    have hc : p c = false := ha c List.mem_cons_self
    rw [List.cons_append, splitBy_cons, hc, if_neg (by simp),
      ih fun d hd => ha d (List.mem_cons_of_mem _ hd), h]
    rfl

/-! ## Fields -/

theorem exists_fields (t : Text) : ∃ f fs, t.fields = f :: fs :=
  List.exists_cons_of_ne_nil (splitBy_ne_nil _ t)

theorem fields_cons (c : Char) (t : Text) :
    fields (c :: t) = if c = ',' then [] :: t.fields else t.fields.modifyHead (c :: ·) := by
  rw [fields, splitBy_cons]
  simp only [beq_iff_eq]
  rfl

theorem fields_of_free (h : ',' ∉ t) : t.fields = [t] := by
  apply splitBy_of_free
  intro c hc
  rw [beq_eq_false_iff_ne]
  rintro rfl
  exact h hc

/-- What stands in front without a comma belongs to the first field. -/
theorem fields_append_of_free {a : Text} (h : ',' ∉ a) (t : Text) :
    (a ++ t).fields = t.fields.modifyHead (a ++ ·) := by
  apply splitBy_append
  intro c hc
  rw [beq_eq_false_iff_ne]
  rintro rfl
  exact h hc

/-- No field has a comma. -/
theorem not_comma_of_mem_fields {f : Text} (hf : f ∈ t.fields) : ',' ∉ f := by
  intro hmem
  simpa using not_of_mem_splitBy hf ',' hmem

/-- Texts without commas, put together with commas, are the fields. -/
theorem fields_join {parts : List Text} (h : ∀ q ∈ parts, ',' ∉ q) (hne : parts ≠ []) :
    fields (join "," parts) = parts := by
  rw [fields, splitBy_eq_splitOnP, ← List.splitOn_eq_splitOnP]
  exact List.splitOn_intercalate ',' h hne

/-- Put together again, the fields are the text. -/
theorem join_fields (t : Text) : join "," t.fields = t := by
  rw [fields, splitBy_eq_splitOnP, ← List.splitOn_eq_splitOnP]
  exact List.intercalate_splitOn ','

theorem join_cons_cons (separator : String) (part q : Text) (parts : List Text) :
    join separator (part :: q :: parts) =
      part ++ separator.toList ++ join separator (q :: parts) := by
  rw [join, List.intercalate_cons_cons]
  rfl

theorem join_singleton (separator : String) (part : Text) : join separator [part] = part :=
  List.intercalate_singleton

/-- What stands in a joined text stands in a part or in the separator. -/
theorem mem_join {separator : String} {parts : List Text} {c : Char} (h : c ∈ join separator parts) :
    c ∈ separator.toList ∨ ∃ q ∈ parts, c ∈ q := by
  induction parts with
  | nil => cases h
  | cons part parts ih =>
    cases parts with
    | nil =>
      rw [join_singleton] at h
      exact .inr ⟨part, List.mem_cons_self, h⟩
    | cons q parts =>
      rw [join_cons_cons, List.append_assoc, List.mem_append, List.mem_append] at h
      rcases h with h | h | h
      · exact .inr ⟨part, List.mem_cons_self, h⟩
      · exact .inl h
      · rcases ih h with h | ⟨r, hr, h⟩
        · exact .inl h
        · exact .inr ⟨r, List.mem_cons_of_mem _ hr, h⟩

/-- What stands in a part stands in the parts put together. -/
theorem mem_join_of_mem {separator : String} {parts : List Text} {q : Text} {c : Char}
    (hq : q ∈ parts) (hc : c ∈ q) : c ∈ join separator parts := by
  induction parts with
  | nil => cases hq
  | cons part parts ih =>
    cases parts with
    | nil =>
      rw [join_singleton, ← List.mem_singleton.1 hq]
      exact hc
    | cons r parts =>
      rw [join_cons_cons, List.mem_append, List.mem_append]
      rcases List.mem_cons.1 hq with rfl | hq
      · exact .inl (.inl hc)
      · exact .inr (ih hq)

/-- A blank behind each comma belongs to the field that follows. -/
theorem join_comma_blank (part : Text) (parts : List Text) :
    join ", " (part :: parts) = join "," (part :: parts.map (' ' :: ·)) := by
  induction parts generalizing part with
  | nil => rfl
  | cons q parts ih =>
    have hblank : join "," ((' ' :: q) :: parts.map (' ' :: ·)) =
        ' ' :: join "," (q :: parts.map (' ' :: ·)) := by
      cases parts with
      | nil => rfl
      | cons r parts => simp only [List.map_cons, join_cons_cons, List.cons_append]
    rw [List.map_cons, join_cons_cons, join_cons_cons, hblank, ih]
    simp

theorem fields_join_comma_blank {part : Text} {parts : List Text} (h : ∀ q ∈ part :: parts, ',' ∉ q) :
    fields (join ", " (part :: parts)) = part :: parts.map (' ' :: ·) := by
  rw [join_comma_blank]
  refine fields_join (fun q hq => ?_) (by simp)
  rcases List.mem_cons.1 hq with rfl | hq
  · exact h q List.mem_cons_self
  · obtain ⟨r, hr, rfl⟩ := List.mem_map.1 hq
    have := h r (List.mem_cons_of_mem _ hr)
    simpa using this

/-! ## Trimming -/

/-- Blanks in front do not matter. -/
theorem trimStart_append {b : Text} (hb : b.blank = true) (t : Text) :
    trimStart (b ++ t) = trimStart t :=
  List.dropWhile_append_of_pos (List.all_eq_true.1 hb)

/-- What stands behind decides: if it is blank it goes as a whole, else nothing before it goes. -/
theorem trimEnd_append (a b : Text) :
    trimEnd (a ++ b) = if b.blank then trimEnd a else a ++ trimEnd b := by
  induction a with
  | nil =>
    cases hb : b.blank with
    | false => rfl
    | true => rw [if_pos rfl]; exact (trimEnd_eq_nil_iff b).2 hb
  | cons c a ih =>
    rw [List.cons_append, trimEnd_cons, ih, trimEnd_cons]
    cases hb : b.blank with
    | true => simp only [if_true]
    | false =>
      have hne : trimEnd b ≠ [] := fun h => by
        rw [(trimEnd_eq_nil_iff b).1 h] at hb
        cases hb
      simp [hne]

/-- A text without blanks at its ends is found again behind blanks. -/
theorem trim_indented {b : Text} (hb : b.blank = true) (hs : t.trimStart = t) (he : t.trimEnd = t) :
    trim (b ++ t) = t := by
  rw [trim, trimStart_append hb, hs, he]

/-- Blanks behind do not matter. -/
theorem trim_append {b : Text} (hb : b.blank = true) (t : Text) : trim (t ++ b) = trim t := by
  have hnil : trimStart b = [] := by
    have := trimStart_append hb []
    rwa [List.append_nil] at this
  unfold trim
  rw [trimStart, List.dropWhile_append]
  split
  · rename_i hempty
    rw [← trimStart, hnil, trimStart, List.isEmpty_iff.1 hempty]
  · rw [trimEnd_append, if_pos hb]
    rfl

/-- Trimming twice is trimming once. -/
theorem trimEnd_trimEnd (t : Text) : t.trimEnd.trimEnd = t.trimEnd := by
  obtain ⟨b, hb, ht⟩ := exists_trimEnd_append t
  have h := trimEnd_append t.trimEnd b
  rw [if_pos hb, ← ht] at h
  exact h.symm

/-- A text without any blank is trimmed. -/
theorem trim_of_free (h : ∀ c ∈ t, isBlank c = false) : t.trimStart = t ∧ t.trimEnd = t :=
  ⟨(trimStart_eq_self_iff t).2 fun c hc => h c (List.mem_of_mem_head? hc),
    (trimEnd_eq_self_iff t).2 fun c hc => h c (List.mem_of_getLast? hc)⟩

/-- Trimming looks at the ends one after the other. -/
theorem trim_eq_self (hs : t.trimStart = t) (he : t.trimEnd = t) : t.trim = t :=
  trim_indented (b := []) rfl hs he

/-! ## Words -/

theorem words_append_cons {c : Char} (hc : isBlank c = true) (a b : Text) :
    words (a ++ c :: b) = words a ++ words b := by
  rw [words, splitBy_append_cons hc, List.filter_append]
  rfl

/-- A text without blanks is a word, if it is not empty. -/
theorem words_of_free (h : ∀ c ∈ t, isBlank c = false) (hne : t ≠ []) : words t = [t] := by
  rw [words, splitBy_of_free h]
  simp [hne]

/-- The first word, and what is behind it without blanks at its ends. -/
theorem headAndRest_append {w : Text} (hw : ∀ c ∈ w, isBlank c = false) (rest : Text) :
    headAndRest (w ++ ' ' :: rest) = (w, rest.trim) := by
  have hpos : ∀ c ∈ w, (!isBlank c) = true := fun c hc => by rw [hw c hc]; rfl
  have hblank : isBlank ' ' = true := by decide
  have htake : (w ++ ' ' :: rest).takeWhile (fun c => !isBlank c) = w := by
    rw [List.takeWhile_append_of_pos hpos, List.takeWhile_cons, hblank]
    simp
  have hdrop : (w ++ ' ' :: rest).dropWhile (fun c => !isBlank c) = ' ' :: rest := by
    rw [List.dropWhile_append_of_pos hpos, List.dropWhile_cons, hblank]
    simp
  have htrim : trim (' ' :: rest) = rest.trim := by
    have : trimStart ([' '] ++ rest) = trimStart rest := trimStart_append (by decide) rest
    rw [trim, trim, ← this]
    rfl
  rw [headAndRest, htake, hdrop, htrim]

/-- A text without blanks has no rest. -/
theorem headAndRest_of_free (h : ∀ c ∈ t, isBlank c = false) : headAndRest t = (t, []) := by
  have hpos : ∀ c ∈ t, (!isBlank c) = true := fun c hc => by rw [h c hc]; rfl
  have htake : t.takeWhile (fun c => !isBlank c) = t := by
    have : (t ++ []).takeWhile _ = t ++ _ := List.takeWhile_append_of_pos hpos
    simpa using this
  have hdrop : t.dropWhile (fun c => !isBlank c) = [] := by
    have : (t ++ []).dropWhile _ = _ := List.dropWhile_append_of_pos hpos
    simpa using this
  rw [headAndRest, htake, hdrop]
  rfl

/-- The first word of a line stays in front when the line is trimmed. -/
theorem head_of_trim {b w : Text} (hb : b.blank = true) (hw : ∀ c ∈ w, isBlank c = false)
    (hne : w ≠ []) (rest : Text) : (trim (b ++ (w ++ ' ' :: rest))).headAndRest.1 = w := by
  obtain ⟨c, v, rfl⟩ := List.exists_cons_of_ne_nil hne
  have hstart : trimStart (c :: v ++ ' ' :: rest) = c :: v ++ ' ' :: rest :=
    (trimStart_eq_self_iff _).2 fun d hd => by
      obtain rfl : c = d := Option.some.inj hd
      exact hw c List.mem_cons_self
  rw [trim, trimStart_append hb, hstart, trimEnd_append]
  split
  · -- only blanks behind: the word is the whole line
    obtain ⟨-, he⟩ := trim_of_free hw
    rw [he, headAndRest_of_free hw]
  · rename_i hnot
    have hrest : trimEnd rest ≠ [] := by
      intro h
      have hblank := (trimEnd_eq_nil_iff rest).1 h
      refine hnot ?_
      rw [blank, List.all_cons]
      exact Bool.and_eq_true_iff.2 ⟨by decide, hblank⟩
    have hif : ((trimEnd rest).isEmpty && isBlank ' ') = false := by
      cases ht : trimEnd rest with
      | nil => exact absurd ht hrest
      | cons d r => rfl
    rw [trimEnd_cons, hif, if_neg (by simp), headAndRest_append hw]

/-! ## Lines -/

/-- The lines that a text becomes when a line feed is put behind it. -/
def physical (t : Text) : List Text := (t.splitBy (· == '\n')).map dropReturn

/-- A row of texts, each with a line feed behind it. -/
def unlines (ts : List Text) : Text := ts.flatMap fun t => t ++ ['\n']

theorem splitBy_unlines (ts : List Text) :
    (unlines ts).splitBy (· == '\n') = ts.flatMap (splitBy (· == '\n')) ++ [[]] := by
  induction ts with
  | nil => rfl
  | cons t ts ih =>
    have hsplit : unlines (t :: ts) = t ++ '\n' :: unlines ts := by
      simp [unlines]
    rw [hsplit, splitBy_append_cons (by rfl), ih, List.flatMap_cons, List.append_assoc]

/-- **Lines of a row**: those of its texts, one text behind another. -/
theorem lines_unlines (ts : List Text) : lines (unlines ts) = ts.flatMap physical := by
  unfold lines
  simp only [splitBy_unlines, List.dropLast_concat, List.getLast?_concat, List.map_flatMap]
  rfl

/-- A line holds no line feed. -/
theorem not_mem_of_mem_lines {line : Text} (h : line ∈ t.lines) : '\n' ∉ line := by
  have hfree : ∀ piece ∈ t.splitBy (· == '\n'), '\n' ∉ piece := fun piece hp hc => by
    have := not_of_mem_splitBy hp '\n' hc
    simp at this
  have hdrop : ∀ piece ∈ t.splitBy (· == '\n'), '\n' ∉ dropReturn piece := fun piece hp hc => by
    unfold dropReturn at hc
    split at hc
    · exact hfree piece hp (List.dropLast_subset _ hc)
    · exact hfree piece hp hc
  have hterminated : ∀ piece ∈ (t.splitBy (· == '\n')).dropLast.map dropReturn, '\n' ∉ piece :=
    List.forall_mem_map.2 fun piece hp => hdrop piece (List.dropLast_subset _ hp)
  unfold lines at h
  extract_lets pieces terminated at h
  split at h
  · exact hterminated line h
  · exact hterminated line h
  · rename_i hlast
    rcases List.mem_append.1 h with h | h
    · exact hterminated line h
    · rw [List.mem_singleton.1 h]
      exact hfree _ (List.mem_of_getLast? hlast)

/-- A text without line feeds that does not end in a carriage return is one line. -/
theorem physical_of_free (h : ∀ c ∈ t, c ≠ '\n') (hr : t.getLast? ≠ some '\r') :
    physical t = [t] := by
  rw [physical, splitBy_of_free fun c hc => by simpa using h c hc, List.map_singleton, dropReturn,
    if_neg hr]

/-- What stands in front of a text, if it is no terminator, stands in front of its first line. -/
theorem physical_append {a : Text} (ha : ∀ c ∈ a, c ≠ '\n' ∧ c ≠ '\r') (t : Text) :
    physical (a ++ t) = (physical t).modifyHead (a ++ ·) := by
  have hfree : ∀ c ∈ a, (c == '\n') = false := fun c hc => by simpa using (ha c hc).1
  -- a carriage return is dropped at the end only, and `a` has none
  have hdrop : ∀ f : Text, dropReturn (a ++ f) = a ++ dropReturn f := by
    intro f
    unfold dropReturn
    cases f with
    | nil =>
      rw [List.append_nil, if_neg fun h => (ha _ (List.mem_of_getLast? h)).2 rfl]
      simp
    | cons c f =>
      have hlast : (a ++ c :: f).getLast? = (c :: f).getLast? := by
        rw [List.getLast?_append, List.getLast?_eq_some_getLast (by simp)]
        rfl
      rw [hlast]
      split
      · rw [List.dropLast_append_of_ne_nil (by simp)]
      · rfl
  obtain ⟨field, rest, h⟩ := List.exists_cons_of_ne_nil (splitBy_ne_nil (· == '\n') t)
  rw [physical, physical, splitBy_append hfree, h]
  simp only [List.modifyHead_cons, List.map_cons, hdrop]

end Text

end Minicore
