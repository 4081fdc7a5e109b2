/-
  OUTCOME — how an assembly ends, for every text.

  Problem: two passes, three kinds of fault, and many lines that may be at fault.  One fault is told,
  on one line, and a person who mends the text relies on it being the first.

  1. **Obstacles** — the first pass stops at a line that cannot be read, or with which the words no
     longer fit (`Obstacle`), and at the FIRST such line (`place_outcome`).

  2. **Dangling references** — the second pass stops at the first instruction whose symbol no line of
     the WHOLE text defines (`encodeLines_outcome`).  It is only reached when there is no obstacle, so
     an obstacle wins over a dangling reference on an earlier line.

  3. **Nothing else** — a line that cannot be read holds a number that is no literal: the catalog never
     finds a line ambiguous (`invalidLiteral_of_read`).  The address check and the counter of the second
     pass never fail either, so these are all the ends there are (`outcome_of_assemble`).

  4. **Readable texts** — where every line can be read, lines no longer matter: the number of words
     and the symbols of the instructions decide (`outcome_of_readable`).
-/
import Minicore.Proofs.Assembly.Statements
import Minicore.Proofs.Machine.Matching

namespace Minicore

namespace Statement

/-! ## Lines that cannot be read -/

theorem invalidLiteral_of_readValues {list : Text} {c : Cause} (h : readValues list = .error c) :
    ∃ v, c = .invalidLiteral v := by
  unfold readValues at h
  split at h
  · cases h
  · generalize list.fields.map Text.trim = values at h
    -- the first value that is no literal is told
    induction values with
    | nil => cases h
    | cons v values ih =>
      rw [List.mapM_cons] at h
      cases hv : readValue v with
      | error fault =>
        rw [hv] at h
        obtain rfl : fault = c := Except.error.inj h
        unfold readValue at hv
        split at hv
        · cases hv
        · exact ⟨v, (Except.error.inj hv).symm⟩
      | ok w =>
        rw [hv] at h
        cases hrest : values.mapM readValue with
        | error fault =>
          rw [hrest] at h ih
          obtain rfl : fault = c := Except.error.inj h
          exact ih rfl
        | ok ws =>
          rw [hrest] at h
          cases h

/-- **A line that cannot be read** holds a number that is no literal. -/
theorem invalidLiteral_of_read {line : Text} {c : Cause} (h : read line = .error c) :
    ∃ v, c = .invalidLiteral v := by
  unfold read at h
  cases hclassify : Catalog.standard.classify line with
  | error fault =>
    rw [hclassify] at h
    obtain rfl : Cause.ofClassify fault = c := Except.error.inj h
    cases fault with
    | invalidLiteral v => exact ⟨v, rfl⟩
    | ambiguous line' ops => exact absurd hclassify (Catalog.classify_ne_ambiguous _ _ _ _)
  | ok found =>
    rw [hclassify] at h
    cases found with
    | some m => cases h
    | none =>
      simp only at h
      unfold ofWords at h
      split at h
      · cases h
      · split at h
        · cases hvalues : readValues (Text.join " " ‹List Text›) with
          | error fault =>
            rw [hvalues] at h
            obtain rfl : fault = c := Except.error.inj h
            exact invalidLiteral_of_readValues hvalues
          | ok vs => rw [hvalues] at h; cases h
        · cases h
      · cases h

end Statement

namespace Statement

/-! ## References -/

/-- The symbol that an instruction refers to. -/
def reference? : Statement → Option Text
  | .code _ (some (.symbol name)) => some name
  | _ => none

theorem reference?_eq_some_iff {s : Statement} {x : Text} :
    s.reference? = some x ↔ ∃ op, s = .code op (some (.symbol x)) := by
  constructor
  · intro h
    unfold reference? at h
    split at h
    · rw [Option.some.inj h]
      exact ⟨_, rfl⟩
    · cases h
  · rintro ⟨op, rfl⟩
    rfl

/-- The symbols that these statements refer to, in order. -/
def references (ss : List Statement) : List Text := ss.filterMap reference?

@[simp] theorem references_append (ss ts : List Statement) :
    references (ss ++ ts) = references ss ++ references ts :=
  List.filterMap_append

end Statement

namespace Layout

open Statement (read ofLine?)
open SourceLine (Accepted accepted_iff)

/-! ## The first pass -/

/-- The words of the statements among these lines. -/
def wordsOf (raws : List Text) : Nat := Statement.words (raws.filterMap ofLine?)

theorem wordsOf_append (raws others : List Text) :
    wordsOf (raws ++ others) = wordsOf raws + wordsOf others := by
  rw [wordsOf, List.filterMap_append, Statement.words_append]
  rfl

theorem wordsOf_of_none {raw : Text} (h : ofLine? raw = none) : wordsOf [raw] = 0 := by
  rw [wordsOf, List.filterMap_cons_none h]
  rfl

theorem wordsOf_of_some {raw : Text} {s : Statement} (h : ofLine? raw = some s) :
    wordsOf [raw] = s.width := by
  rw [wordsOf, List.filterMap_cons_some h, Statement.words_cons]
  rfl

/-- The first pass does not get past the line `raw` behind the lines `before`: it cannot be read, or
    with it there are more words than an image holds. -/
inductive Obstacle (before : List Text) (raw : Text) : Cause → Prop
  | unreadable {c : Cause} : read raw = .error c → Obstacle before raw c
  | overflow {s : Option Statement} :
      read raw = .ok s → imageDepth < wordsOf (before ++ [raw]) →
      Obstacle before raw (.imageOverflow (wordsOf (before ++ [raw])) imageDepth)

/-- No line of `raws`, behind the lines `past`, is an obstacle. -/
def Clear (past raws : List Text) : Prop :=
  ∀ before raw after, raws = before ++ raw :: after → ∀ c, ¬ Obstacle (past ++ before) raw c

theorem clear_nil (past : List Text) : Clear past [] := by
  intro before raw after h
  simp at h

/-- One line after another. -/
theorem clear_cons {past raws : List Text} {raw : Text} (h : ∀ c, ¬ Obstacle past raw c)
    (hrest : Clear (past ++ [raw]) raws) : Clear past (raw :: raws) := by
  intro before line after hsplit c
  cases before with
  | nil =>
    obtain ⟨rfl, rfl⟩ := List.cons.inj hsplit
    rw [List.append_nil]
    exact h c
  | cons first before =>
    obtain ⟨rfl, hraws⟩ := List.cons.inj hsplit
    have hline := hrest before line after hraws c
    rwa [List.append_assoc, List.singleton_append] at hline

/-- At an obstacle the first pass stops, and tells the line. -/
theorem place_of_obstacle {past : List Text} {raw : Text} {c : Cause} (h : Obstacle past raw c)
    (hpast : wordsOf past ≤ imageDepth) (map : AddressMap) (raws : List Text) :
    place past.length (wordsOf past) map (raw :: raws) =
      .error ⟨c, some ⟨past.length + 1, raw⟩⟩ := by
  cases h with
  | unreadable hread => simp only [place, hread, Fault.locate, Fault.ofCause]
  | @overflow s hread hover =>
    have hline := wordsOf_append past [raw]
    have hofLine := Statement.ofLine?_of_read hread
    cases s with
    | none =>
      -- a line that is no statement adds no words
      rw [wordsOf_of_none hofLine] at hline
      omega
    | some s =>
      rw [wordsOf_of_some hofLine] at hline
      rw [hline] at hover ⊢
      simp only [place, hread, if_pos hover, Fault.locate, Fault.ofCause]

/-- Anything else it passes: with more in its hands, it goes on behind the line. -/
theorem place_of_clear {past : List Text} {raw : Text} (h : ∀ c, ¬ Obstacle past raw c)
    (map : AddressMap) (raws : List Text) :
    wordsOf (past ++ [raw]) ≤ imageDepth ∧ ∃ (map' : AddressMap) (add : Layout → Layout),
      place past.length (wordsOf past) map (raw :: raws) =
        (place (past ++ [raw]).length (wordsOf (past ++ [raw])) map' raws).map add := by
  have hline := wordsOf_append past [raw]
  have hlength : (past ++ [raw]).length = past.length + 1 := by simp
  cases hread : read raw with
  | error c => exact absurd (.unreadable hread) (h c)
  | ok s =>
    have hofLine := Statement.ofLine?_of_read hread
    have hfit : wordsOf (past ++ [raw]) ≤ imageDepth := by
      by_contra hover
      exact h _ (.overflow hread (by omega))
    refine ⟨hfit, ?_⟩
    cases s with
    | none =>
      rw [wordsOf_of_none hofLine, Nat.add_zero] at hline
      refine ⟨map, fun l => ⟨⟨past.length, raw, none, none⟩ :: l.lines, l.map, l.size,
        skipped past.length raw ++ l.warnings⟩, ?_⟩
      rw [hline, hlength]
      simp only [place, hread]
      cases place (past.length + 1) (wordsOf past) map raws <;> rfl
    | some s =>
      rw [wordsOf_of_some hofLine] at hline
      rw [hline] at hfit
      refine ⟨define map past.length (wordsOf past) s, fun l =>
        ⟨⟨past.length, raw, some s, some (UInt16.ofNat (wordsOf past))⟩ :: l.lines, l.map, l.size,
          redefinition map past.length s ++ l.warnings⟩, ?_⟩
      rw [hline, hlength]
      simp only [place, hread, if_neg (Nat.not_lt.2 hfit)]
      cases place (past.length + 1) (wordsOf past + s.width)
        (define map past.length (wordsOf past) s) raws <;> rfl

/-- **The first pass** stops at the first obstacle and tells its line; without one it has a layout. -/
theorem place_outcome (past raws : List Text) (map : AddressMap) (hpast : wordsOf past ≤ imageDepth) :
    (∃ before raw after c, raws = before ++ raw :: after ∧ Clear past before ∧
      Obstacle (past ++ before) raw c ∧
      place past.length (wordsOf past) map raws =
        .error ⟨c, some ⟨(past ++ before).length + 1, raw⟩⟩) ∨
    Clear past raws ∧ ∃ l, place past.length (wordsOf past) map raws = .ok l := by
  -- along the lines, for every stretch of lines that has been passed
  induction raws generalizing past map with
  | nil => exact .inr ⟨clear_nil past, _, rfl⟩
  | cons raw raws ih =>
    by_cases h : ∃ c, Obstacle past raw c
    · obtain ⟨c, hc⟩ := h
      refine .inl ⟨[], raw, raws, c, rfl, clear_nil past, ?_, ?_⟩
      · rwa [List.append_nil]
      · rw [place_of_obstacle hc hpast, List.append_nil]
    · rw [not_exists] at h
      obtain ⟨hfit, map', add, hplace⟩ := place_of_clear h map raws
      rw [hplace]
      rcases ih (past ++ [raw]) map' hfit with
        ⟨before, line, after, c, rfl, hclear, hobstacle, herror⟩ | ⟨hclear, l, hok⟩
      · have hassoc : past ++ [raw] ++ before = past ++ raw :: before := by simp
        rw [hassoc] at hobstacle herror
        refine .inl ⟨raw :: before, line, after, c, rfl, clear_cons h hclear, hobstacle, ?_⟩
        rw [herror]
        rfl
      · refine .inr ⟨clear_cons h hclear, add l, ?_⟩
        rw [hok]
        rfl

/-! ## The second pass -/

/-- The line is an instruction whose symbol `x` the map does not have. -/
def Unknown (map : AddressMap) (l : SourceLine) (x : Text) : Prop :=
  (∃ op, l.statement = some (.code op (some (.symbol x)))) ∧ map.address? x = none

/-- **The second pass** stops at the first instruction whose symbol the map does not have and tells its
    line; without one it has records. -/
theorem encodeLines_outcome (map : AddressMap) {i pc : Nat} {ls : List SourceLine}
    (h : Placed i pc ls) :
    (∃ before l after x, ls = before ++ l :: after ∧ (∀ earlier ∈ before, ∀ y, ¬ Unknown map earlier y) ∧
      Unknown map l x ∧ encodeLines map (UInt16.ofNat pc) ls =
        .error ⟨.unresolvedSymbol x, some ⟨l.index + 1, l.text⟩⟩) ∨
    (∀ l ∈ ls, ∀ x, ¬ Unknown map l x) ∧ ∃ rs, encodeLines map (UInt16.ofNat pc) ls = .ok rs := by
  -- a line that there is nothing against is no such instruction
  have hnot : ∀ {n : Nat} {l : SourceLine}, Accepted map n l → ∀ x, ¬ Unknown map l x := by
    rintro n l hl x ⟨⟨op, hs⟩, hx⟩
    have hknown := (accepted_iff.1 hl).2 op x hs
    rw [hx] at hknown
    cases hknown
  have hall : ∀ {ls : List SourceLine}, Along (Accepted map) pc ls → ∀ l ∈ ls, ∀ x, ¬ Unknown map l x := by
    intro ls hls l hl
    obtain ⟨before, after, hsplit⟩ := List.append_of_mem hl
    exact hnot (hls before l after hsplit)
  rcases encodeLines_run map h.room with
    ⟨before, l, after, f, rfl, hbefore, hf, herror⟩ | ⟨haccepted, hok⟩
  · obtain ⟨op, x, hs, hx, rfl⟩ := h.unresolved hf
    exact .inl ⟨before, l, after, x, rfl, hall hbefore, ⟨⟨op, hs⟩, hx⟩, herror⟩
  · exact .inr ⟨hall haccepted, _, hok⟩

/-! ## Both passes -/

/-- The line refers to the name `x`, and no line of the text defines it. -/
def Dangling (t raw x : Text) : Prop :=
  (∃ op, read raw = .ok (some (.code op (some (.symbol x))))) ∧ x ∉ Statement.names t.statements

/-- What the map of a text does not have is what no line of it defines. -/
theorem unknown_iff_dangling {t : Text} {l : Layout} (h : ofText t = .ok l) {line : SourceLine}
    (hl : line ∈ l.lines) (x : Text) : Unknown l.map line x ↔ Dangling t line.text x := by
  have hread := (lines_of_ofText h).2 line hl
  have hnames : x ∈ Statement.names t.statements ↔ (OrderedMap.find? l.map x).isSome := by
    rw [isSome_find?_map_iff h, ← statements_of_ofText h, names_statementsOf, List.mem_filterMap]
  rw [Unknown, Dangling, hread, hnames, AddressMap.address?, Option.map_eq_none_iff]
  simp only [Except.ok.injEq, Option.not_isSome_iff_eq_none]

/-- **The two passes**: the first obstacle, without one the first dangling reference, without either the
    records. -/
theorem assemble_outcome (t : Text) :
    (∃ before raw after c, t.lines = before ++ raw :: after ∧ Clear [] before ∧ Obstacle before raw c ∧
      assemble t = .error ⟨c, some ⟨before.length + 1, raw⟩⟩) ∨
    Clear [] t.lines ∧
      ((∃ before raw after x, t.lines = before ++ raw :: after ∧
          (∀ line ∈ before, ∀ y, ¬ Dangling t line y) ∧ Dangling t raw x ∧
          assemble t = .error ⟨.unresolvedSymbol x, some ⟨before.length + 1, raw⟩⟩) ∨
        (∀ line ∈ t.lines, ∀ x, ¬ Dangling t line x) ∧ ∃ asm, assemble t = .ok asm) := by
  rcases place_outcome [] t.lines OrderedMap.empty (Nat.zero_le _) with
    ⟨before, raw, after, c, hlines, hclear, hobstacle, hplace⟩ | ⟨hclear, l, hplace⟩
  · rw [List.nil_append] at hobstacle hplace
    have hofText : ofText t = .error ⟨c, some ⟨before.length + 1, raw⟩⟩ := hplace
    exact .inl ⟨before, raw, after, c, hlines, hclear, hobstacle, by simp only [assemble, hofText]⟩
  · have hofText : ofText t = .ok l := hplace
    have hplaced := placed_of_ofText hofText
    have htexts := (lines_of_ofText hofText).1
    have hdangling := @unknown_iff_dangling t l hofText
    refine .inr ⟨hclear, ?_⟩
    rcases encodeLines_outcome l.map hplaced with
      ⟨before, line, after, x, hlines, hbefore, hline, herror⟩ | ⟨hall, rs, hok⟩
    · -- lines of the layout are lines of the text, with their index and their text
      have hencode : l.encode = .error ⟨.unresolvedSymbol x, some ⟨before.length + 1, line.text⟩⟩ := by
        rw [← (line_of_ofText hofText hlines).1]
        exact herror
      refine .inl ⟨before.map SourceLine.text, line.text, after.map SourceLine.text, x, ?_, ?_, ?_, ?_⟩
      · rw [← htexts, hlines, List.map_append, List.map_cons]
      · intro raw hraw y hy
        obtain ⟨earlier, hmem, rfl⟩ := List.mem_map.1 hraw
        have hearlier : earlier ∈ l.lines := by rw [hlines]; exact List.mem_append_left _ hmem
        exact hbefore earlier hmem y ((hdangling hearlier y).2 hy)
      · exact (hdangling (by rw [hlines]; simp) x).1 hline
      · rw [List.length_map]
        simp only [assemble, hofText, hencode]
    · have hencode : l.encode = .ok rs := hok
      refine .inr ⟨?_, ⟨l, rs⟩, by simp only [assemble, hofText, hencode]⟩
      intro raw hraw x hx
      rw [← htexts] at hraw
      obtain ⟨line, hline, rfl⟩ := List.mem_map.1 hraw
      exact hall line hline x ((hdangling hline x).2 hx)

/-- **Outcome of an assembly.**  If some line is an obstacle, the assembly fails at the first one, with
    the number and the text of that line: with the literal that is none if the line cannot be read, else
    with the number of words up to it.  If there is none, but some instruction has a symbol that no
    line of the text defines, it fails at the first one of these.  Otherwise it succeeds.  There are no
    other faults, and every fault has its place. -/
theorem outcome_of_assemble (t : Text) :
    ((∃ before raw after c, t.lines = before ++ raw :: after ∧ Clear [] before ∧ Obstacle before raw c ∧
        (read raw = .error c ∧ (∃ v, c = .invalidLiteral v) ∨
          (∃ s, read raw = .ok s) ∧ c = .imageOverflow (wordsOf (before ++ [raw])) imageDepth) ∧
        assemble t = .error ⟨c, some ⟨before.length + 1, raw⟩⟩) ∨
      Clear [] t.lines ∧
        ((∃ before raw after x, t.lines = before ++ raw :: after ∧
            (∀ line ∈ before, ∀ y, ¬ Dangling t line y) ∧ Dangling t raw x ∧
            assemble t = .error ⟨.unresolvedSymbol x, some ⟨before.length + 1, raw⟩⟩) ∨
          (∀ line ∈ t.lines, ∀ x, ¬ Dangling t line x) ∧ ∃ asm, assemble t = .ok asm)) ∧
    ∀ f, assemble t = .error f → f.place.isSome ∧ ((∃ v, f.cause = .invalidLiteral v) ∨
      (∃ words, f.cause = .imageOverflow words imageDepth) ∨ ∃ x, f.cause = .unresolvedSymbol x) := by
  rcases assemble_outcome t with ⟨before, raw, after, c, hlines, hclear, hobstacle, hassemble⟩ |
    ⟨hclear, ⟨before, raw, after, x, hlines, hbefore, hraw, hassemble⟩ | ⟨hall, asm, hassemble⟩⟩
  · have hcause : read raw = .error c ∧ (∃ v, c = .invalidLiteral v) ∨
        (∃ s, read raw = .ok s) ∧ c = .imageOverflow (wordsOf (before ++ [raw])) imageDepth := by
      cases hobstacle with
      | unreadable hread => exact .inl ⟨hread, Statement.invalidLiteral_of_read hread⟩
      | overflow hread _ => exact .inr ⟨⟨_, hread⟩, rfl⟩
    refine ⟨.inl ⟨before, raw, after, c, hlines, hclear, hobstacle, hcause, hassemble⟩, ?_⟩
    intro f hf
    rw [hassemble] at hf
    obtain rfl := Except.error.inj hf
    rcases hcause with ⟨-, hv⟩ | ⟨-, hwords⟩
    · exact ⟨rfl, .inl hv⟩
    · exact ⟨rfl, .inr (.inl ⟨_, hwords⟩)⟩
  · refine ⟨.inr ⟨hclear, .inl ⟨before, raw, after, x, hlines, hbefore, hraw, hassemble⟩⟩, ?_⟩
    intro f hf
    rw [hassemble] at hf
    obtain rfl := Except.error.inj hf
    exact ⟨rfl, .inr (.inr ⟨x, rfl⟩)⟩
  · refine ⟨.inr ⟨hclear, .inr ⟨hall, asm, hassemble⟩⟩, ?_⟩
    intro f hf
    rw [hassemble] at hf
    cases hf

/-- A reading fault on a later line is told, and the dangling reference on the first line is not. -/
example : assemble "B nowhere\nx DCB 1,\n".toList =
    .error ⟨.invalidLiteral [], some ⟨2, "x DCB 1,".toList⟩⟩ := rfl

/-! ## Texts that can be read -/

/-- When every line can be read and none is an obstacle, the words fit. -/
theorem wordsOf_le_of_clear {raws : List Text} (hread : ∀ raw ∈ raws, ∃ s, read raw = .ok s)
    (hclear : Clear [] raws) : wordsOf raws ≤ imageDepth := by
  -- the last line is no obstacle, so the words up to it fit
  rcases List.eq_nil_or_concat raws with rfl | ⟨before, raw, rfl⟩
  · exact Nat.zero_le _
  · rw [List.concat_eq_append] at *
    obtain ⟨s, hs⟩ := hread raw (by simp)
    by_contra hover
    exact hclear before raw [] rfl _ (.overflow hs (by rw [List.nil_append]; omega))

/-- **Readable texts**: their words and their names alone decide. -/
theorem outcome_of_readable {t : Text} (hread : ∀ line ∈ t.lines, ∃ s, read line = .ok s) :
    (imageDepth < Statement.words t.statements ∧
      ∃ f words, assemble t = .error f ∧ f.cause = .imageOverflow words imageDepth) ∨
    Statement.words t.statements ≤ imageDepth ∧
      ((∃ x ∈ Statement.references t.statements, x ∉ Statement.names t.statements) ∧
          (∃ f x, assemble t = .error f ∧ f.cause = .unresolvedSymbol x) ∨
        (∀ x ∈ Statement.references t.statements, x ∈ Statement.names t.statements) ∧
          ∃ asm, assemble t = .ok asm) := by
  -- a reference of a statement is one of the line that it stands on
  have hreference : ∀ x, x ∈ Statement.references t.statements ↔
      ∃ line ∈ t.lines, ∃ op, read line = .ok (some (.code op (some (.symbol x)))) := by
    intro x
    simp only [Statement.references, Text.statements, List.mem_filterMap, Statement.ofLine?_eq_some_iff,
      Statement.reference?_eq_some_iff]
    constructor
    · rintro ⟨_, ⟨line, hl, hs⟩, op, rfl⟩
      exact ⟨line, hl, op, hs⟩
    · rintro ⟨line, hl, op, hs⟩
      exact ⟨_, ⟨line, hl, hs⟩, op, rfl⟩
  rcases assemble_outcome t with ⟨before, raw, after, c, hlines, -, hobstacle, hassemble⟩ |
    ⟨hclear, ⟨before, raw, after, x, hlines, -, ⟨⟨op, hraw⟩, hx⟩, hassemble⟩ | ⟨hall, asm, hassemble⟩⟩
  · cases hobstacle with
    | unreadable herror =>
      obtain ⟨s, hs⟩ := hread raw (by rw [hlines]; simp)
      rw [hs] at herror
      cases herror
    | overflow _ hover =>
      refine .inl ⟨?_, _, _, hassemble, rfl⟩
      have hall : wordsOf t.lines = wordsOf (before ++ [raw]) + wordsOf after := by
        rw [← wordsOf_append, hlines, List.append_assoc, List.singleton_append]
      show imageDepth < wordsOf t.lines
      omega
  · refine .inr ⟨wordsOf_le_of_clear hread hclear, .inl ⟨⟨x, ?_, hx⟩, _, _, hassemble, rfl⟩⟩
    exact (hreference x).2 ⟨raw, by rw [hlines]; simp, op, hraw⟩
  · refine .inr ⟨wordsOf_le_of_clear hread hclear, .inr ⟨fun x hx => ?_, asm, hassemble⟩⟩
    obtain ⟨line, hl, hop⟩ := (hreference x).1 hx
    by_contra hnot
    exact hall line hl x ⟨hop, hnot⟩

end Layout

end Minicore
