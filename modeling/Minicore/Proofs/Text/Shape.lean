/-
  SHAPE — the words between the commas of a text.

  Problem: people lay out a list as they like, with more or fewer blanks beside a comma, with tabs or wider
  spaces.  What they may change without changing what is read is everything that is not in the SHAPE of
  the text: for each field, its words.

  1. **What keeps the shape** — blanks at the ends or beside a comma that come or go (`shape_indented`,
     `shape_append`, `shape_comma`), and one run of blanks in the place of another (`shape_gap`).

  2. **What the shape keeps** — a text without blanks at its ends is taken apart along its shape: a first
     word, blanks, and a text of the other words (`eq_of_shape`, `exists_after_of_shape`).
-/
import Minicore.Proofs.Text.Spacing

namespace Minicore

namespace Text

variable {t u : Text}

/-! ## The same shape -/

/-- The words between the commas of a text. -/
def shape (t : Text) : List (List Text) := t.fields.map words

/-- Only the trimmed fields matter. -/
theorem shape_of_fields (h : t.fields.map trim = u.fields.map trim) : shape t = shape u := by
  have htrim : ∀ v : Text, shape v = (v.fields.map trim).map words := by
    intro v
    rw [List.map_map]
    exact List.map_congr_left fun q _ => (words_trim q).symm
  rw [htrim, htrim, h]

theorem shape_trim (t : Text) : shape t.trim = shape t := shape_of_fields (fields_trim t)

theorem shape_indented {b : Text} (hb : b.blank = true) (t : Text) : shape (b ++ t) = shape t :=
  shape_of_fields (fields_indented hb t)

theorem shape_append {b : Text} (hb : b.blank = true) (t : Text) : shape (t ++ b) = shape t :=
  shape_of_fields (fields_append hb t)

theorem shape_comma (s t : Text) : shape (s ++ ',' :: t) = shape s ++ shape t := by
  rw [shape, fields, splitBy_append_cons (by decide), List.map_append]
  rfl

/-- One run of blanks takes the place of another. -/
theorem shape_gap {b b' : Text} (hne : b ≠ []) (hb : b.blank = true) (hne' : b' ≠ [])
    (hb' : b'.blank = true) (s t : Text) : shape (s ++ (b ++ t)) = shape (s ++ (b' ++ t)) := by
  obtain ⟨front, last, -, happend⟩ := exists_fields_append s
  obtain ⟨f, fs, hf⟩ := exists_fields t
  have hrun : ∀ {c : Text}, c ≠ [] → c.blank = true →
      shape (s ++ (c ++ t)) = front.map words ++ (words last ++ words f) :: fs.map words := by
    intro c hc hblank
    rw [shape, happend, fields_append_of_free (not_comma_of_blank hblank), hf, List.modifyHead_cons,
      List.modifyHead_cons, List.map_append, List.map_cons, words_gap hc hblank]
  rw [hrun hne hb, hrun hne' hb']

section Word

variable {w : Text} (hw : ∀ c ∈ w, isBlank c = false) (hcomma : ',' ∉ w) (hne : w ≠ [])

include hw hcomma hne

theorem shape_word : shape w = [[w]] := by
  rw [shape, fields_of_free hcomma, List.map_singleton, words_of_free hw hne]

/-- A word and blanks in front come first in the shape. -/
theorem shape_cons {gap : Text} (hgap : gap ≠ []) (hblank : gap.blank = true) (after : Text) :
    shape (w ++ (gap ++ after)) = (shape after).modifyHead (w :: ·) := by
  obtain ⟨f, fs, hf⟩ := exists_fields after
  rw [shape, shape, fields_append_of_free hcomma, fields_append_of_free (not_comma_of_blank hblank), hf,
    List.modifyHead_cons, List.modifyHead_cons, List.map_cons, List.map_cons, List.modifyHead_cons,
    words_of_after hw hne hgap hblank]

end Word

/-! ## Taking apart -/

/-- A trimmed text of one word is that word. -/
theorem eq_of_shape {w : Text} (ht : t.trim = t) (h : shape t = [[w]]) : t = w := by
  obtain ⟨f, hf, hwords⟩ := List.map_eq_singleton_iff.1 h
  have hone : t = f := by
    rw [← join_fields t, hf, join_singleton]
  rw [← ht, hone, trim_of_words hwords]

/-- **Along its shape** a trimmed text is taken apart: its first word, blanks, and a trimmed text of the
    rest of the shape, if there is a second word before the first comma. -/
theorem exists_after_of_shape {w : Text} {v : List Text} {others : List (List Text)} (ht : t.trim = t)
    (h : shape t = (w :: v) :: others) (hv : v ≠ []) :
    ∃ gap after : Text, t = w ++ (gap ++ after) ∧ gap ≠ [] ∧ gap.blank = true ∧
      after.trim = after ∧ shape after = v :: others := by
  obtain ⟨f, fs, hfields, hf, hfs⟩ := List.map_eq_cons_iff.1 h
  obtain ⟨b, rest, rfl, hb, hrest, hboundary⟩ := exists_of_words_cons hf
  obtain ⟨gap, c, behind, rfl, hgap, hblank, hc⟩ :=
    exists_gap (by rw [hrest]; exact hv) hboundary
  rw [words_indented hblank] at hrest
  have hjoin : join "," ((c :: behind) :: fs) = c :: join "," (behind :: fs) :=
    (append_join [c] behind fs).symm
  have hwhole : t = b ++ (w ++ (gap ++ c :: join "," (behind :: fs))) := by
    rw [← hjoin, append_join, append_join, append_join, ← hfields, join_fields]
  have hfree : ∀ q ∈ (c :: behind) :: fs, ',' ∉ q := by
    have hall : ∀ q ∈ t.fields, ',' ∉ q := fun _ => not_comma_of_mem_fields
    rw [hfields, List.forall_mem_cons] at hall
    refine List.forall_mem_cons.2 ⟨?_, hall.2⟩
    intro hmem
    exact hall.1 (by simp [hmem])
  -- the text is trimmed: nothing stands in front of its first word, and its end is trimmed too
  obtain ⟨hstart, hend⟩ := ends_of_trim ht
  rw [hwhole] at hstart
  obtain rfl : b = [] := eq_nil_of_trimStart hb hstart
  rw [List.nil_append] at hwhole
  rw [hwhole, ← List.append_assoc] at hend
  refine ⟨gap, c :: join "," (behind :: fs), hwhole, hgap, hblank, trim_of_suffix hc hend, ?_⟩
  rw [← hjoin, shape, fields_join hfree (List.cons_ne_nil _ _), List.map_cons, hrest, hfs]

end Text

end Minicore
