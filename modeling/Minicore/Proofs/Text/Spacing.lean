/-
  SPACING — how much of a text depends on its blanks.

  Problem: readers treat blanks in different ways.  One trims a text, one cuts it at commas and trims the
  pieces, one cuts it at blanks, puts the words together again with single blanks and only then cuts at
  commas.  Whoever writes a text wants to know that all of them see the same words between the same
  commas.

  1. **Fields** — trimming a text changes its first and its last field only, and only by blanks
     (`fields_trim`); what stands in front of a text is put in front of its first field
     (`exists_fields_append`).

  2. **Words** — a first word is found at a boundary (`words_split`, `exists_of_words_cons`); a character
     that is no blank at either end of a text can be told from its words, and so can the words of the
     rest (`words_cons_inj`, `words_concat_inj`).

  3. **Crux** — cutting at commas after the words were put together again gives the fields, each with
     ITS words put together again (`fields_squeezed`).

  4. **Trimmed texts** — a text without blanks at its ends is its first word, blanks, and a text of the
     other words without blanks at ITS ends (`exists_after_of_words`).
-/
import Minicore.Proofs.Text.Pieces
import Mathlib.Data.List.Basic
import Mathlib.Data.List.Induction
import Mathlib.Data.List.TakeWhile

namespace Minicore

namespace Text

variable {t u : Text}

/-! ## Fields of a trimmed text -/

/-- What is cut off by trimming is blank. -/
theorem exists_trim (t : Text) :
    ∃ b b' : Text, b.blank = true ∧ b'.blank = true ∧ t = b ++ (t.trim ++ b') := by
  obtain ⟨b', hb', ht⟩ := exists_trimEnd_append t.trimStart
  refine ⟨t.takeWhile isBlank, b', List.all_takeWhile, hb', ?_⟩
  rw [trim, ← ht, trimStart, List.takeWhile_append_dropWhile]

theorem not_comma_of_blank {b : Text} (hb : b.blank = true) : ',' ∉ b := by
  intro hmem
  have hcomma : isBlank ',' = true := List.all_eq_true.1 hb _ hmem
  exact absurd hcomma (by decide)

/-- Blanks in front belong to the first field. -/
theorem fields_indented {b : Text} (hb : b.blank = true) (t : Text) :
    (b ++ t).fields.map trim = t.fields.map trim := by
  obtain ⟨field, rest, h⟩ := exists_fields t
  rw [fields_append_of_free (not_comma_of_blank hb), h, List.modifyHead_cons, List.map_cons,
    List.map_cons]
  congr 1
  rw [trim, trim, trimStart_append hb]

theorem join_concat_append (parts : List Text) (part b : Text) :
    join "," (parts ++ [part ++ b]) = join "," (parts ++ [part]) ++ b := by
  induction parts with
  | nil => simp only [List.nil_append, join_singleton]
  | cons q parts ih =>
    cases parts with
    | nil => simp only [List.cons_append, List.nil_append, join_cons_cons, join_singleton,
        List.append_assoc]
    | cons r parts =>
      simp only [List.cons_append, join_cons_cons, List.append_assoc] at ih ⊢
      rw [ih]

/-- Blanks behind belong to the last field. -/
theorem fields_append {b : Text} (hb : b.blank = true) (t : Text) :
    (t ++ b).fields.map trim = t.fields.map trim := by
  obtain ⟨front, last, hfields⟩ : ∃ front last, t.fields = front ++ [last] :=
    ⟨_, _, (List.dropLast_concat_getLast (splitBy_ne_nil (· == ',') t)).symm⟩
  have hfree : ∀ q ∈ front ++ [last], ',' ∉ q := by
    intro q hq
    rw [← hfields] at hq
    exact not_comma_of_mem_fields hq
  have hjoin : t ++ b = join "," (front ++ [last ++ b]) := by
    rw [join_concat_append, ← hfields, join_fields]
  have hlast : ∀ q ∈ front ++ [last ++ b], ',' ∉ q := by
    rw [List.forall_mem_append, List.forall_mem_singleton] at hfree ⊢
    refine ⟨hfree.1, fun hmem => ?_⟩
    rcases List.mem_append.1 hmem with hmem | hmem
    · exact hfree.2 hmem
    · exact not_comma_of_blank hb hmem
  rw [hjoin, fields_join hlast (by simp), hfields, List.map_append, List.map_append]
  congr 1
  rw [List.map_singleton, List.map_singleton, trim_append hb]

/-- **Fields of a trimmed text**, each trimmed, are those of the text. -/
theorem fields_trim (t : Text) : t.trim.fields.map trim = t.fields.map trim := by
  obtain ⟨b, b', hb, hb', ht⟩ := exists_trim t
  conv_rhs => rw [ht]
  rw [fields_indented hb, fields_append hb']

/-! ## Fields of texts put together -/

/-- Behind a text, the last field of it and the first field of what follows are one. -/
theorem exists_fields_append (s : Text) : ∃ (front : List Text) (last : Text),
    s.fields = front ++ [last] ∧
      ∀ t : Text, (s ++ t).fields = front ++ t.fields.modifyHead (last ++ ·) := by
  induction s with
  | nil =>
    refine ⟨[], [], rfl, ?_⟩
    intro t
    obtain ⟨f, fs, hfields⟩ := exists_fields t
    show t.fields = t.fields.modifyHead ([] ++ ·)
    rw [hfields]
    rfl
  | cons c s ih =>
    obtain ⟨front, last, hlast, happend⟩ := ih
    by_cases hc : c = ','
    · refine ⟨[] :: front, last, ?_, ?_⟩
      · rw [fields_cons, if_pos hc, hlast]
        rfl
      · intro t
        rw [List.cons_append, fields_cons, if_pos hc, happend]
        rfl
    · cases front with
      | nil =>
        refine ⟨[], c :: last, ?_, ?_⟩
        · rw [fields_cons, if_neg hc, hlast]
          rfl
        · intro t
          obtain ⟨f, fs, hfields⟩ := exists_fields t
          rw [List.cons_append, fields_cons, if_neg hc, happend, hfields]
          rfl
      | cons f front =>
        refine ⟨(c :: f) :: front, last, ?_, ?_⟩
        · rw [fields_cons, if_neg hc, hlast]
          rfl
        · intro t
          rw [List.cons_append, fields_cons, if_neg hc, happend]
          rfl

/-- What stands in front of a joined text stands in front of its first part. -/
theorem append_join (a part : Text) (parts : List Text) :
    a ++ join "," (part :: parts) = join "," ((a ++ part) :: parts) := by
  cases parts with
  | nil => rw [join_singleton, join_singleton]
  | cons q parts => rw [join_cons_cons, join_cons_cons, List.append_assoc, List.append_assoc,
      List.append_assoc]

/-- A field has no characters but those of the text. -/
theorem mem_of_mem_fields {f : Text} (hf : f ∈ t.fields) {c : Char} (hc : c ∈ f) : c ∈ t := by
  rw [← join_fields t]
  exact mem_join_of_mem hf hc

/-! ## Words at a boundary -/

@[simp] theorem words_nil : words [] = [] := rfl

theorem words_cons_blank {c : Char} (hc : isBlank c = true) (t : Text) : words (c :: t) = words t :=
  words_append_cons hc [] t

/-- Blanks in front do not matter. -/
theorem words_indented {b : Text} (hb : b.blank = true) (t : Text) : words (b ++ t) = words t := by
  induction b with
  | nil => rfl
  | cons c b ih =>
    rw [blank, List.all_cons, Bool.and_eq_true] at hb
    rw [List.cons_append, words_cons_blank hb.1]
    exact ih hb.2

theorem words_of_blank {b : Text} (hb : b.blank = true) : words b = [] := by
  have h := words_indented hb []
  rwa [List.append_nil] at h

/-- A run of blanks parts words. -/
theorem words_gap {b : Text} (hne : b ≠ []) (hb : b.blank = true) (s t : Text) :
    words (s ++ (b ++ t)) = words s ++ words t := by
  obtain ⟨c, b, rfl⟩ := List.exists_cons_of_ne_nil hne
  rw [blank, List.all_cons, Bool.and_eq_true] at hb
  rw [List.cons_append, words_append_cons hb.1, words_indented hb.2]

/-- Blanks behind do not matter. -/
theorem words_append_blank {b : Text} (hb : b.blank = true) (t : Text) : words (t ++ b) = words t := by
  by_cases hne : b = []
  · rw [hne, List.append_nil]
  · have h := words_gap hne hb t []
    rwa [List.append_nil, words_nil, List.append_nil] at h

theorem words_trim (t : Text) : words t.trim = words t := by
  obtain ⟨b, b', hb, hb', ht⟩ := exists_trim t
  conv_rhs => rw [ht]
  rw [words_indented hb, words_append_blank hb']

/-- A word is not empty and has no blank. -/
theorem mem_words {w : Text} (h : w ∈ words t) : w ≠ [] ∧ ∀ c ∈ w, isBlank c = false := by
  obtain ⟨hw, hne⟩ := List.mem_filter.1 h
  exact ⟨by simpa using hne, not_of_mem_splitBy hw⟩

/-- The words are those up to the first blank and those from there on. -/
theorem words_split (t : Text) :
    words t = words (t.takeWhile fun c => !isBlank c) ++ words (t.dropWhile fun c => !isBlank c) := by
  cases hbehind : t.dropWhile fun c => !isBlank c with
  | nil =>
    have hall := List.takeWhile_append_dropWhile (p := fun c => !isBlank c) (l := t)
    rw [hbehind, List.append_nil] at hall
    rw [hall, words_nil, List.append_nil]
  | cons c behind =>
    have hc : isBlank c = true := by
      have hfirst := List.head?_dropWhile_not (fun c => !isBlank c) t
      rw [hbehind] at hfirst
      simpa using hfirst
    rw [words_cons_blank hc, ← words_append_cons hc, ← hbehind, List.takeWhile_append_dropWhile]

/-- A character that is no blank starts the first word. -/
theorem words_cons {c : Char} (hc : isBlank c = false) (t : Text) :
    words (c :: t) = (c :: t.takeWhile fun d => !isBlank d) :: words (t.dropWhile fun d => !isBlank d) := by
  have hpos : (!isBlank c) = true := by rw [hc]; rfl
  have hfree : ∀ d ∈ c :: t.takeWhile (fun d => !isBlank d), isBlank d = false := by
    intro d hd
    rcases List.mem_cons.1 hd with rfl | hd
    · exact hc
    · simpa using List.mem_takeWhile_imp hd
  have hword := words_of_free hfree (List.cons_ne_nil _ _)
  have htake : (c :: t).takeWhile (fun d => !isBlank d) = c :: t.takeWhile fun d => !isBlank d := by
    rw [List.takeWhile_cons, if_pos hpos]
  have hdrop : (c :: t).dropWhile (fun d => !isBlank d) = t.dropWhile fun d => !isBlank d := by
    rw [List.dropWhile_cons, if_pos hpos]
  rw [words_split, htake, hdrop, hword]
  rfl

/-- A text with a first word: blanks, the word, and nothing or a blank behind it. -/
theorem exists_of_words_cons {w : Text} {ws : List Text} (h : words t = w :: ws) :
    ∃ b rest : Text, t = b ++ (w ++ rest) ∧ b.blank = true ∧ words rest = ws ∧
      ∀ c ∈ rest.head?, isBlank c = true := by
  have hsplit : t = t.takeWhile isBlank ++ t.dropWhile isBlank :=
    List.takeWhile_append_dropWhile.symm
  have hblank : blank (t.takeWhile isBlank) = true := List.all_takeWhile
  have hfirst := List.head?_dropWhile_not isBlank t
  cases hbehind : t.dropWhile isBlank with
  | nil =>
    rw [hbehind, List.append_nil] at hsplit
    rw [hsplit, words_of_blank hblank] at h
    cases h
  | cons c u =>
    rw [hbehind] at hsplit hfirst
    have hc : isBlank c = false := by simpa using hfirst
    rw [hsplit, words_indented hblank, words_cons hc] at h
    obtain ⟨hw, hws⟩ := List.cons.inj h
    refine ⟨t.takeWhile isBlank, u.dropWhile fun d => !isBlank d, ?_, hblank, hws, ?_⟩
    · rw [← hw, List.cons_append, List.takeWhile_append_dropWhile]
      exact hsplit
    · intro d hd
      have hnot := List.head?_dropWhile_not (fun d => !isBlank d) u
      rw [Option.mem_def.1 hd] at hnot
      simpa using hnot

theorem words_eq_nil_iff : words t = [] ↔ t.blank = true := by
  induction t with
  | nil => exact ⟨fun _ => rfl, fun _ => rfl⟩
  | cons c t ih =>
    rw [blank, List.all_cons, ← blank]
    cases hc : isBlank c with
    | true => rw [words_cons_blank hc, ih, Bool.true_and]
    | false =>
      rw [words_cons hc, Bool.false_and]
      constructor
      · intro h
        cases h
      · intro h
        cases h

/-- A text of one word is that word and blanks. -/
theorem trim_of_words {w : Text} (h : words t = [w]) : t.trim = w := by
  obtain ⟨b, rest, rfl, hb, hrest, -⟩ := exists_of_words_cons h
  have hfree := (mem_words (by rw [h]; exact List.mem_singleton_self w)).2
  obtain ⟨hs, he⟩ := trim_of_free hfree
  rw [← List.append_assoc, trim_append (words_eq_nil_iff.1 hrest), trim_indented hb hs he]

/-- A word with blanks around it is the only word. -/
theorem words_of_trim {w : Text} (h : t.trim = w) (hfree : ∀ c ∈ w, isBlank c = false) (hne : w ≠ []) :
    words t = [w] := by
  rw [← words_trim, h]
  exact words_of_free hfree hne

/-! ## Words with one more character -/

/-- In front of the words of a text a character that is no blank can be told from them. -/
theorem words_cons_inj {c d : Char} (hc : isBlank c = false) (hd : isBlank d = false)
    (h : words (c :: t) = words (d :: u)) : c = d ∧ words t = words u := by
  rw [words_cons hc, words_cons hd] at h
  obtain ⟨hword, hbehind⟩ := List.cons.inj h
  obtain ⟨hfirst, hfront⟩ := List.cons.inj hword
  refine ⟨hfirst, ?_⟩
  rw [words_split t, words_split u, hfront, hbehind]

/-- The word that a text ends in, perhaps an empty one, goes on with what follows. -/
theorem exists_words_append (t : Text) : ∃ (ws : List Text) (w : Text), (∀ c ∈ w, isBlank c = false) ∧
    ∀ v : Text, (∀ c ∈ v, isBlank c = false) → words (t ++ v) = ws ++ words (w ++ v) := by
  induction t using List.reverseRecOn with
  | nil => exact ⟨[], [], by simp, fun v _ => rfl⟩
  | append_singleton t d ih =>
    cases hd : isBlank d with
    | true =>
      refine ⟨words t, [], by simp, ?_⟩
      intro v _
      rw [List.append_assoc, List.singleton_append, words_append_cons hd]
      rfl
    | false =>
      obtain ⟨ws, w, hw, happend⟩ := ih
      refine ⟨ws, w ++ [d], ?_, ?_⟩
      · intro c hc
        rcases List.mem_append.1 hc with hc | hc
        · exact hw c hc
        · rw [List.mem_singleton.1 hc]
          exact hd
      · intro v hv
        rw [List.append_assoc, List.append_assoc, List.singleton_append]
        exact happend (d :: v) (List.forall_mem_cons.2 ⟨hd, hv⟩)

/-- Behind the words of a text a character that is no blank can be told from them. -/
theorem words_concat_inj {c d : Char} (hc : isBlank c = false) (hd : isBlank d = false)
    (h : words (t ++ [c]) = words (u ++ [d])) : c = d ∧ words t = words u := by
  obtain ⟨ws, w, hw, ht⟩ := exists_words_append t
  obtain ⟨vs, v, hv, hu⟩ := exists_words_append u
  have hone : ∀ e : Char, isBlank e = false → ∀ x ∈ [e], isBlank x = false := by
    intro e he x hx
    rw [List.mem_singleton.1 hx]
    exact he
  have hlast : ∀ (x : Text) (e : Char), (∀ y ∈ x, isBlank y = false) → isBlank e = false →
      words (x ++ [e]) = [x ++ [e]] := by
    intro x e hx he
    apply words_of_free _ (by simp)
    intro y hy
    rcases List.mem_append.1 hy with hy | hy
    · exact hx y hy
    · exact hone e he y hy
  rw [ht _ (hone c hc), hu _ (hone d hd), hlast w c hw hc, hlast v d hv hd] at h
  obtain ⟨hfront, hback⟩ := List.append_inj' h rfl
  obtain ⟨hword, hchar⟩ := List.append_inj' (List.singleton_inj.1 hback) rfl
  -- without the last characters the last words are the same too
  have ht' := ht [] (by simp)
  have hu' := hu [] (by simp)
  rw [List.append_nil] at ht' hu'
  exact ⟨List.singleton_inj.1 hchar, by rw [ht', hu', hfront, hword]⟩

/-! ## Words put together again -/

/-- The words of the text with one blank between neighbours. -/
def squeezed (t : Text) : Text := join " " t.words

theorem squeezed_of_free (h : ∀ c ∈ t, isBlank c = false) : squeezed t = t := by
  by_cases hne : t = []
  · rw [hne]
    rfl
  · rw [squeezed, words_of_free h hne, join_singleton]

theorem squeezed_trim (t : Text) : t.trim.squeezed = t.squeezed := by
  rw [squeezed, squeezed, words_trim]

/-- A word, a blank, and the other words. -/
theorem squeezed_of_words {w : Text} {ws : List Text} (h : words t = w :: ws) (hne : ws ≠ []) :
    squeezed t = w ++ ' ' :: join " " ws := by
  obtain ⟨v, ws, rfl⟩ := List.exists_cons_of_ne_nil hne
  rw [squeezed, h, join_cons_cons, List.append_assoc]
  rfl

theorem words_squeezed (t : Text) : words (squeezed t) = words t := by
  have hall : ∀ w ∈ words t, w ≠ [] ∧ ∀ c ∈ w, isBlank c = false := fun w hw => mem_words hw
  unfold squeezed
  generalize words t = ws at hall
  induction ws with
  | nil => rfl
  | cons w ws ih =>
    obtain ⟨⟨hne, hfree⟩, hall⟩ := List.forall_mem_cons.1 hall
    cases ws with
    | nil => rw [join_singleton, words_of_free hfree hne]
    | cons v ws =>
      have hspace : blank " ".toList = true := by decide
      rw [join_cons_cons, List.append_assoc, words_gap (by decide) hspace, words_of_free hfree hne,
        ih hall]
      rfl

/-- A word, a blank and more, trimmed: the word alone if nothing but blanks follows. -/
theorem trim_word_blank {w g : Text} (hw : ∀ c ∈ w, isBlank c = false) (hne : w ≠ []) :
    trim (w ++ ' ' :: g) = if g.blank then w else w ++ ' ' :: g.trimEnd := by
  obtain ⟨hstart, hend⟩ := trim_of_free hw
  have hfirst : trimStart (w ++ ' ' :: g) = w ++ ' ' :: g := by
    apply (trimStart_eq_self_iff _).2
    obtain ⟨c, v, rfl⟩ := List.exists_cons_of_ne_nil hne
    intro d hd
    obtain rfl : c = d := Option.some.inj hd
    exact hw c List.mem_cons_self
  have hspace : isBlank ' ' = true := by decide
  rw [trim, hfirst, trimEnd_append, blank, List.all_cons, hspace, Bool.true_and, ← blank]
  by_cases hg : g.blank = true
  · rw [if_pos hg, if_pos hg, hend]
  · have hnot : (trimEnd g).isEmpty = false := by
      rw [Bool.eq_false_iff]
      intro hempty
      exact hg ((trimEnd_eq_nil_iff g).1 (List.isEmpty_iff.1 hempty))
    rw [if_neg hg, if_neg hg, trimEnd_cons, hnot]
    rfl

/-- Words put together again start with no blank, and so does their first field. -/
theorem trimStart_field_squeezed {g : Text} {gs : List Text} (h : (squeezed t).fields = g :: gs) :
    g.trimStart = g := by
  apply (trimStart_eq_self_iff g).2
  intro d hd
  cases hwords : words t with
  | nil =>
    have hnil : squeezed t = [] := by rw [squeezed, hwords]; rfl
    rw [hnil] at h
    obtain rfl : [] = g := (List.cons.inj h).1
    cases hd
  | cons w ws =>
    obtain ⟨hne, hfree⟩ := mem_words (by rw [hwords]; exact List.mem_cons_self)
    obtain ⟨c, v, rfl⟩ := List.exists_cons_of_ne_nil hne
    have hfirst : ∃ rest, squeezed t = c :: rest := by
      rw [squeezed, hwords]
      cases ws with
      | nil => exact ⟨v, join_singleton _ _⟩
      | cons q ws => exact ⟨_, join_cons_cons _ _ _ _⟩
    obtain ⟨rest, hrest⟩ := hfirst
    rw [hrest, fields_cons] at h
    split at h
    · obtain rfl : [] = g := (List.cons.inj h).1
      cases hd
    · obtain ⟨f, fs, hfields⟩ := exists_fields rest
      rw [hfields] at h
      obtain rfl : c :: f = g := (List.cons.inj h).1
      obtain rfl : c = d := Option.some.inj hd
      exact hfree c List.mem_cons_self

/-- Where a text ends in the word `last` and goes on behind a blank, it does not matter whether the
    words that follow were put together before. -/
theorem trim_last_field {last f g : Text} (hlast : ∀ c ∈ last, isBlank c = false)
    (hstart : g.trimStart = g) (hg : g.trim = squeezed f)
    (hwords : words (last ++ f) = words last ++ words f) :
    trim (last ++ ' ' :: g) = squeezed (last ++ f) := by
  have hend : g.trimEnd = squeezed f := by rw [← hg, trim, hstart]
  by_cases hne : last = []
  · have hblank : blank " ".toList = true := by decide
    rw [hne, List.nil_append, List.nil_append, ← hg, trim, trim]
    show trimEnd (trimStart (" ".toList ++ g)) = _
    rw [trimStart_append hblank]
  · have hone : words last = [last] := words_of_free hlast hne
    rw [trim_word_blank hlast hne, hend]
    by_cases hblank : g.blank = true
    · have hnil : words f = [] := by
        rw [← words_squeezed, ← hend, (trimEnd_eq_nil_iff g).2 hblank, words_nil]
      rw [if_pos hblank, squeezed, hwords, hone, hnil, List.append_nil, join_singleton]
    · have hsome : words f ≠ [] := by
        intro hnil
        apply hblank
        rw [← trimEnd_eq_nil_iff, hend, squeezed, hnil]
        rfl
      rw [if_neg hblank]
      rw [hone, List.singleton_append] at hwords
      exact (squeezed_of_words hwords hsome).symm

theorem map_squeezed_trim (parts : List Text) : (parts.map trim).map squeezed = parts.map squeezed := by
  rw [List.map_map]
  exact List.map_congr_left fun q _ => squeezed_trim q

/-- Blanks in front of a text do not show in its fields. -/
theorem fields_squeezed_indented {b : Text} (hb : b.blank = true) (t : Text) :
    (b ++ t).fields.map squeezed = t.fields.map squeezed := by
  rw [← map_squeezed_trim, fields_indented hb, map_squeezed_trim]

/-- A text that starts with a blank has a first field that does, if it is not empty. -/
theorem head?_first_field {f : Text} {fs : List Text} (hf : t.fields = f :: fs)
    (h : ∀ c ∈ t.head?, isBlank c = true) : ∀ c ∈ f.head?, isBlank c = true := by
  intro c hc
  cases t with
  | nil =>
    obtain rfl : [] = f := (List.cons.inj hf).1
    cases hc
  | cons d t =>
    have hd : isBlank d = true := h d rfl
    have hcomma : d ≠ ',' := by
      rintro rfl
      exact absurd hd (by decide)
    obtain ⟨g, gs, hg⟩ := exists_fields t
    rw [fields_cons, if_neg hcomma, hg] at hf
    obtain rfl : d :: g = f := (List.cons.inj hf).1
    obtain rfl : d = c := Option.some.inj hc
    exact hd

/-- Words that stand behind a blank are words of their own. -/
theorem words_append_boundary (h : ∀ c ∈ t.head?, isBlank c = true) (s : Text) :
    words (s ++ t) = words s ++ words t := by
  cases t with
  | nil => rw [List.append_nil, words_nil, List.append_nil]
  | cons c t =>
    have hc : isBlank c = true := h c rfl
    rw [words_append_cons hc, words_cons_blank hc]

/-- One more word in front. -/
theorem fields_squeezed_cons {w rest : Text} (hw : ∀ c ∈ w, isBlank c = false)
    (hboundary : ∀ c ∈ rest.head?, isBlank c = true)
    (hrest : (squeezed rest).fields.map trim = rest.fields.map squeezed) :
    (w ++ ' ' :: squeezed rest).fields.map trim = (w ++ rest).fields.map squeezed := by
  obtain ⟨front, last, hlast, happend⟩ := exists_fields_append w
  obtain ⟨f, fs, hf⟩ := exists_fields rest
  obtain ⟨g, gs, hg⟩ := exists_fields (squeezed rest)
  rw [hg, hf] at hrest
  obtain ⟨hfirst, hothers⟩ := List.cons.inj hrest
  -- the fields of the word have no blanks
  have hfree : ∀ q ∈ front ++ [last], ∀ c ∈ q, isBlank c = false := by
    intro q hq c hc
    rw [← hlast] at hq
    exact hw c (mem_of_mem_fields hq hc)
  rw [List.forall_mem_append, List.forall_mem_singleton] at hfree
  have hfront : front.map trim = front.map squeezed := by
    apply List.map_congr_left
    intro q hq
    obtain ⟨hs, he⟩ := trim_of_free (hfree.1 q hq)
    rw [squeezed_of_free (hfree.1 q hq), trim_eq_self hs he]
  -- its last field goes on with the first field of the rest
  have hspace : fields (' ' :: squeezed rest) = (' ' :: g) :: gs := by
    rw [fields_cons, if_neg (by decide), hg]
    rfl
  have hbehind := words_append_boundary (head?_first_field hf hboundary) last
  have hjoint := trim_last_field hfree.2 (trimStart_field_squeezed hg) hfirst hbehind
  rw [happend, happend, hspace, hf, List.modifyHead_cons, List.modifyHead_cons, List.map_append,
    List.map_append, List.map_cons, List.map_cons, hfront, hjoint, hothers]

/-- **Cutting after putting together**: the fields of the words put together again, trimmed, are the
    fields of the text, each with its own words put together again. -/
theorem fields_squeezed (t : Text) : (squeezed t).fields.map trim = t.fields.map squeezed := by
  -- word by word
  generalize hwords : words t = ws
  induction ws generalizing t with
  | nil =>
    have hblank := words_eq_nil_iff.1 hwords
    rw [fields_of_free (not_comma_of_blank hblank), List.map_singleton, squeezed, hwords]
    rfl
  | cons w ws ih =>
    obtain ⟨b, rest, rfl, hb, hrest, hboundary⟩ := exists_of_words_cons hwords
    have hfree := (mem_words (by rw [hwords]; exact List.mem_cons_self)).2
    rw [fields_squeezed_indented hb, ← fields_squeezed_cons hfree hboundary (ih rest hrest)]
    by_cases hnil : ws = []
    · have hspace : blank " ".toList = true := by decide
      have hone : squeezed (b ++ (w ++ rest)) = w := by
        rw [squeezed, hwords, hnil, join_singleton]
      have hnone : squeezed rest = [] := by
        rw [squeezed, hrest, hnil]
        rfl
      rw [hone, hnone]
      exact (fields_append hspace w).symm
    · rw [squeezed_of_words hwords hnil, squeezed, hrest]

/-! ## Trimmed texts, taken apart -/

/-- What is left of a text has no blank at either end. -/
theorem ends_trim (t : Text) : t.trim.trimStart = t.trim ∧ t.trim.trimEnd = t.trim := by
  constructor
  · apply (trimStart_eq_self_iff t.trim).2
    intro c hc
    obtain ⟨b, -, hb⟩ := exists_trimEnd_append t.trimStart
    have hfirst := List.head?_dropWhile_not isBlank t
    rw [← trimStart, hb, ← trim, List.head?_append, Option.mem_def.1 hc] at hfirst
    simpa using hfirst
  · rw [trim, trimEnd_trimEnd]

theorem trim_trim (t : Text) : t.trim.trim = t.trim :=
  trim_eq_self (ends_trim t).1 (ends_trim t).2

theorem ends_of_trim (h : t.trim = t) : t.trimStart = t ∧ t.trimEnd = t := by
  rw [← h]
  exact ends_trim t

/-- A trimmed text has no blanks in front. -/
theorem eq_nil_of_trimStart {b : Text} (hb : b.blank = true) (h : (b ++ t).trimStart = b ++ t) :
    b = [] := by
  have hlength := (List.dropWhile_suffix isBlank (l := t)).length_le
  rw [trimStart_append hb, trimStart] at h
  rw [h, List.length_append] at hlength
  exact List.length_eq_zero_iff.1 (by omega)

/-- What a trimmed text ends in is trimmed, if it does not start with a blank. -/
theorem trim_of_suffix {x : Text} {c : Char} (hc : isBlank c = false)
    (h : (x ++ c :: t).trimEnd = x ++ c :: t) : trim (c :: t) = c :: t := by
  have hnot : blank (c :: t) = false := by rw [blank, List.all_cons, hc, Bool.false_and]
  have hstart : trimStart (c :: t) = c :: t := by
    apply (trimStart_eq_self_iff _).2
    intro d hd
    obtain rfl : c = d := Option.some.inj hd
    exact hc
  rw [trimEnd_append, hnot, if_neg (by simp)] at h
  exact trim_eq_self hstart (List.append_cancel_left h)

/-- Behind a word, further words come behind a run of blanks. -/
theorem exists_gap (hwords : words t ≠ []) (hboundary : ∀ c ∈ t.head?, isBlank c = true) :
    ∃ (gap : Text) (c : Char) (behind : Text), t = gap ++ c :: behind ∧ gap ≠ [] ∧
      gap.blank = true ∧ isBlank c = false := by
  have hsplit : t = t.takeWhile isBlank ++ t.dropWhile isBlank :=
    List.takeWhile_append_dropWhile.symm
  have hblank : blank (t.takeWhile isBlank) = true := List.all_takeWhile
  have hfirst := List.head?_dropWhile_not isBlank t
  cases hbehind : t.dropWhile isBlank with
  | nil =>
    rw [hbehind, List.append_nil] at hsplit
    rw [hsplit, words_of_blank hblank] at hwords
    exact absurd rfl hwords
  | cons c behind =>
    rw [hbehind] at hsplit hfirst
    refine ⟨t.takeWhile isBlank, c, behind, hsplit, ?_, hblank, by simpa using hfirst⟩
    cases t with
    | nil => exact absurd rfl hwords
    | cons d t =>
      rw [List.takeWhile_cons, if_pos (hboundary d rfl)]
      exact List.cons_ne_nil _ _

/-- A trimmed text of one word is that word. -/
theorem eq_of_words {w : Text} (ht : t.trim = t) (h : words t = [w]) : t = w := by
  rw [← ht, trim_of_words h]

/-- **A trimmed text of several words**: the first one, blanks, and a trimmed text of the others. -/
theorem exists_after_of_words {w : Text} {ws : List Text} (ht : t.trim = t) (h : words t = w :: ws)
    (hws : ws ≠ []) : ∃ gap after : Text, t = w ++ (gap ++ after) ∧ gap ≠ [] ∧ gap.blank = true ∧
      after.trim = after ∧ words after = ws := by
  obtain ⟨b, rest, rfl, hb, hrest, hboundary⟩ := exists_of_words_cons h
  obtain ⟨gap, c, behind, rfl, hgap, hblank, hc⟩ :=
    exists_gap (by rw [hrest]; exact hws) hboundary
  rw [words_indented hblank] at hrest
  -- nothing stands in front of the first word, and the end of the rest is that of the text
  obtain ⟨hstart, hend⟩ := ends_of_trim ht
  obtain rfl : b = [] := eq_nil_of_trimStart hb hstart
  rw [List.nil_append, ← List.append_assoc] at hend
  exact ⟨gap, c :: behind, rfl, hgap, hblank, trim_of_suffix hc hend, hrest⟩

/-- The words of a text that is taken apart so. -/
theorem words_of_after {w gap after : Text} (hw : ∀ c ∈ w, isBlank c = false) (hne : w ≠ [])
    (hgap : gap ≠ []) (hblank : gap.blank = true) : words (w ++ (gap ++ after)) = w :: words after := by
  rw [words_gap hgap hblank, words_of_free hw hne]
  rfl

/-- A trimmed text does not end in blanks. -/
theorem words_ne_nil_of_after {s gap after : Text} (ht : (s ++ (gap ++ after)).trim = s ++ (gap ++ after))
    (hgap : gap ≠ []) (hblank : gap.blank = true) : words after ≠ [] := by
  intro hnil
  have hbehind : blank (gap ++ after) = true := by
    rw [blank, List.all_append, Bool.and_eq_true]
    exact ⟨hblank, words_eq_nil_iff.1 hnil⟩
  rw [trim_append hbehind] at ht
  obtain ⟨b, b', -, -, hs⟩ := exists_trim s
  rw [ht] at hs
  have hlength := congrArg List.length hs
  have hpos := List.length_pos_of_ne_nil hgap
  simp only [List.length_append] at hlength
  omega

/-- The first word is what a line is looked up by. -/
theorem head_of_words {w : Text} {ws : List Text} (h : words t = w :: ws) :
    t.trim.headAndRest.1 = w := by
  rw [← words_trim] at h
  obtain ⟨b, rest, ht, hb, -, hboundary⟩ := exists_of_words_cons h
  have hfree := (mem_words (by rw [h]; exact List.mem_cons_self)).2
  have hstart := (ends_trim t).1
  rw [ht] at hstart
  obtain rfl : b = [] := eq_nil_of_trimStart hb hstart
  have hpos : ∀ c ∈ w, (!isBlank c) = true := fun c hc => by rw [hfree c hc]; rfl
  show t.trim.takeWhile (fun c => !isBlank c) = w
  rw [ht, List.nil_append, List.takeWhile_append_of_pos hpos]
  cases rest with
  | nil => rw [List.takeWhile_nil, List.append_nil]
  | cons c rest =>
    have hc : isBlank c = true := hboundary c rfl
    rw [List.takeWhile_cons, hc]
    exact List.append_nil w

end Text

end Minicore
