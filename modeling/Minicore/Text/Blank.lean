/-
  Texts and BLANKS.

  Problem: source lines are free-form — any run of blanks may separate two words, surround an
  operand or end a line, and "blank" is the Unicode property White_Space, not the handful of
  ASCII characters that the standard library's `Char.isWhitespace` knows.

  1. **Program** — a `Text` is a `List Char`, so that every reader below is structural recursion or
     one of the list operators; `isBlank` is membership in the table `blankRanges`; `trim` drops the
     blanks at both ends; `words` are the maximal blank-free stretches.

  2. **Specification** — `trim` leaves neither a leading nor a trailing blank
     (`trimStart_eq_self_iff`, `trimEnd_eq_self_iff`), and it removes nothing but blanks
     (`exists_trimEnd_append`).

  3. **The table** — the 25 characters of White_Space, as ten ranges.  Every character of core's own
     class is among them (`isBlank_of_isWhitespace`); the ASCII separators `U+001C … U+001F`, the
     zero-width space and the byte-order mark are NOT.
-/

namespace Minicore

/-- The characters of a source file, a line or a message, in order. -/
abbrev Text := List Char

/-! ## The blank characters -/

/-- White_Space, as closed ranges of code points. -/
def blankRanges : List (Nat × Nat) :=
  [(0x09, 0x0D), (0x20, 0x20), (0x85, 0x85), (0xA0, 0xA0), (0x1680, 0x1680), (0x2000, 0x200A),
   (0x2028, 0x2029), (0x202F, 0x202F), (0x205F, 0x205F), (0x3000, 0x3000)]

/-- A blank is a character whose code point lies in one of the `blankRanges`. -/
def isBlank (c : Char) : Bool :=
  blankRanges.any fun r => r.1 ≤ c.toNat && c.toNat ≤ r.2

/-- Core's ASCII class is contained in ours. -/
theorem isBlank_of_isWhitespace {c : Char} (h : c.isWhitespace = true) : isBlank c = true := by
  simp only [Char.isWhitespace, Bool.or_eq_true, decide_eq_true_eq] at h
  rcases h with ((rfl | rfl) | rfl) | rfl <;> decide

namespace Text

/-! ## Trimming -/

/-- The text without its leading blanks. -/
def trimStart (t : Text) : Text := t.dropWhile isBlank

/-- The text without its trailing blanks: a blank stays only where something stays after it. -/
def trimEnd (t : Text) : Text :=
  t.foldr (fun c rest => if rest.isEmpty && isBlank c then [] else c :: rest) []

/-- The text without the blanks at either end. -/
def trim (t : Text) : Text := t.trimStart.trimEnd

/-- The text holds nothing but blanks. -/
def blank (t : Text) : Bool := t.all isBlank

@[simp] theorem trimEnd_nil : trimEnd [] = [] := rfl

theorem trimEnd_cons (c : Char) (t : Text) :
    trimEnd (c :: t) = if (trimEnd t).isEmpty && isBlank c then [] else c :: trimEnd t := rfl

/-- Nothing is left of a text exactly when it holds only blanks. -/
theorem trimEnd_eq_nil_iff (t : Text) : trimEnd t = [] ↔ t.blank = true := by
  induction t with
  | nil => simp [blank]
  | cons c t ih =>
    rw [trimEnd_cons]
    cases h : trimEnd t with
    | nil =>
      have ht : blank t = true := ih.1 h
      cases hc : isBlank c <;> simp [blank, hc] at ht ⊢
      exact ht
    | cons d s =>
      have ht : ¬ blank t = true := fun hb => by simp [ih.2 hb] at h
      simp only [blank] at ht
      simp [blank, ht]

/-- Nothing is trimmed in front exactly when the text does not start with a blank. -/
theorem trimStart_eq_self_iff (t : Text) :
    t.trimStart = t ↔ ∀ c ∈ t.head?, isBlank c = false := by
  cases t with
  | nil => simp [trimStart]
  | cons c t =>
    cases hc : isBlank c with
    | false => simp [trimStart, hc]
    | true =>
      have hne : t.dropWhile isBlank ≠ c :: t := by
        intro h
        have := (List.dropWhile_suffix isBlank (l := t)).length_le
        rw [h] at this
        exact Nat.not_succ_le_self _ this
      simpa [trimStart, hc] using hne

/-- Nothing is trimmed behind exactly when the text does not end with a blank. -/
theorem trimEnd_eq_self_iff (t : Text) :
    t.trimEnd = t ↔ ∀ c ∈ t.getLast?, isBlank c = false := by
  induction t with
  | nil => simp
  | cons c t ih =>
    rw [trimEnd_cons]
    cases t with
    | nil => cases hc : isBlank c <;> simp [hc]
    | cons d s =>
      rw [List.getLast?_cons_cons, ← ih]
      constructor
      · intro h
        split at h
        · cases h
        · exact (List.cons.inj h).2
      · intro h
        rw [h]
        simp

/-- Behind a trimmed text only blanks are missing. -/
theorem exists_trimEnd_append (t : Text) : ∃ b : Text, b.blank = true ∧ t = t.trimEnd ++ b := by
  induction t with
  | nil => exact ⟨[], rfl, rfl⟩
  | cons c t ih =>
    obtain ⟨b, hb, ht⟩ := ih
    rw [trimEnd_cons]
    split
    · rename_i h
      simp only [Bool.and_eq_true, List.isEmpty_iff] at h
      rw [h.1, List.nil_append] at ht
      subst ht
      exact ⟨c :: t, by simpa [blank, h.2] using hb, rfl⟩
    · exact ⟨b, hb, by rw [List.cons_append, ← ht]⟩

/-! ## Words -/

/-- The fields of `t` between the characters of the class `p`: one more than there are such
    characters, empty ones included. -/
def splitBy (p : Char → Bool) (t : Text) : List Text :=
  t.foldr (fun c fields =>
    if p c then [] :: fields
    else match fields with
      | [] => [[c]]
      | field :: rest => (c :: field) :: rest) [[]]

/-- The comma-separated fields of `t`, untrimmed. -/
def fields (t : Text) : List Text := t.splitBy (· == ',')

/-- The maximal blank-free stretches of `t`, in order. -/
def words (t : Text) : List Text := (t.splitBy isBlank).filter fun w => !w.isEmpty

/-- The first word of a text without leading blanks, and what follows it, trimmed. -/
def headAndRest (t : Text) : Text × Text :=
  (t.takeWhile fun c => !isBlank c, trim (t.dropWhile fun c => !isBlank c))

@[simp] theorem splitBy_nil (p : Char → Bool) : splitBy p [] = [[]] := rfl

/-- There is always a first field. -/
theorem splitBy_ne_nil (p : Char → Bool) (t : Text) : splitBy p t ≠ [] := by
  cases t with
  | nil => simp
  | cons c t =>
    simp only [splitBy, List.foldr_cons]
    split
    · simp
    · split <;> simp

/-! ## Lines -/

/-- A terminated line loses one carriage return before its line feed. -/
def dropReturn (line : Text) : Text :=
  if line.getLast? = some '\r' then line.dropLast else line

/-- The lines of a text: it is cut at each line feed; one carriage return directly before a line
    feed belongs to the terminator, and an empty stretch after the last line feed is no line.  A
    last line WITHOUT a line feed keeps its carriage return. -/
def lines (t : Text) : List Text :=
  let pieces := t.splitBy (· == '\n')
  let terminated := pieces.dropLast.map dropReturn
  match pieces.getLast? with
  | some [] | none => terminated
  | some last => terminated ++ [last]

/-- The texts of `parts`, with `separator` between neighbours. -/
def join (separator : String) (parts : List Text) : Text :=
  List.intercalate separator.toList parts

/-- The number of bytes of the UTF-8 form. -/
def byteLength (t : Text) : Nat := t.foldl (fun n c => n + c.utf8Size) 0

end Text

/-! ## Running the program -/

example : isBlank '\u00A0' = true ∧ isBlank '\u200B' = false ∧ isBlank '\uFEFF' = false := by decide
example : Text.trim "  a b\t".toList = "a b".toList := by decide
example : Text.words " a  b ".toList = ["a".toList, "b".toList] := by decide
example : Text.fields "1,,2".toList = ["1".toList, [], "2".toList] := by decide
example : Text.lines "a\r\n\nb\r".toList = ["a".toList, [], "b\r".toList] := by decide
example : Text.lines [] = [] ∧ Text.lines "\n".toList = [[]] := by decide
example : (blankRanges.map fun r => r.2 + 1 - r.1).sum = 25 := by decide

end Minicore
