/-
  STATEMENTS OF A TEXT — a layout seen without its lines.

  Problem: what is said of a program (which names it defines, at which words they stand, whether
  anything is doubtful) does not depend on blank lines or on how a statement is written.

  1. **Program** — `Text.statements` reads each line on its own and keeps what is a statement.

  2. **Layouts** — the statements of a layout are those of its text (`statements_of_ofText`), and a
     decomposition of the statements is one of the lines, with as many words before
     (`line_of_statement`).

  3. **Warnings** — a layout has none exactly when every line that holds something is a statement and no
     name is defined twice (`warnings_eq_nil_iff`).
-/
import Minicore.Proofs.Assembly.Resolution
import Mathlib.Data.List.Basic
import Mathlib.Tactic.Tauto

namespace Minicore

namespace Statement

/-- The statement of a line, if it is one and reading it is no fault. -/
def ofLine? (line : Text) : Option Statement :=
  match read line with
  | .ok s => s
  | .error _ => none

theorem ofLine?_of_read {line : Text} {s : Option Statement} (h : read line = .ok s) :
    ofLine? line = s := by
  rw [ofLine?, h]

theorem ofLine?_eq_some_iff {line : Text} {s : Statement} :
    ofLine? line = some s ↔ read line = .ok (some s) := by
  unfold ofLine?
  split
  · rename_i heq
    rw [heq, Except.ok.injEq]
  · rename_i heq
    rw [heq]
    constructor
    · intro h; cases h
    · intro h; cases h

/-- The names that these statements define, in order. -/
def names (ss : List Statement) : List Text := ss.filterMap name?

@[simp] theorem names_append (ss ts : List Statement) : names (ss ++ ts) = names ss ++ names ts :=
  List.filterMap_append

theorem names_perm {ss ts : List Statement} (h : ss.Perm ts) : (names ss).Perm (names ts) :=
  h.filterMap name?

/-- The number of words of these statements. -/
def words (ss : List Statement) : Nat := (ss.map width).sum

@[simp] theorem words_nil : words [] = 0 := rfl

@[simp] theorem words_cons (s : Statement) (ss : List Statement) :
    words (s :: ss) = s.width + words ss := by
  simp [words]

@[simp] theorem words_append (ss ts : List Statement) : words (ss ++ ts) = words ss + words ts := by
  simp [words]

/-- The statement is an instruction or a label. -/
def isCode : Statement → Bool
  | .data _ _ => false
  | _ => true

end Statement

/-- The statements of a text, in line order. -/
def Text.statements (t : Text) : List Statement := t.lines.filterMap Statement.ofLine?

namespace Layout

open SourceLine

variable {t : Text} {l : Layout}

/-! ## Lines and statements -/

/-- The statements of these lines, in line order. -/
def statementsOf (ls : List SourceLine) : List Statement := ls.filterMap SourceLine.statement

theorem statements_of_ofText (h : ofText t = .ok l) : statementsOf l.lines = t.statements := by
  obtain ⟨htexts, hreads⟩ := lines_of_ofText h
  rw [Text.statements, ← htexts, List.filterMap_map]
  exact List.filterMap_congr fun line hl => (Statement.ofLine?_of_read (hreads line hl)).symm

/-- Words and names are those of the statements. -/
theorem words_statementsOf (ls : List SourceLine) : Statement.words (statementsOf ls) = words ls := by
  induction ls with
  | nil => rfl
  | cons l ls ih =>
    cases hs : l.statement with
    | none =>
      rw [statementsOf, List.filterMap_cons_none hs, ← statementsOf, ih, SourceLine.words_cons,
        width_of_no_statement hs, Nat.zero_add]
    | some s =>
      rw [statementsOf, List.filterMap_cons_some hs, ← statementsOf, Statement.words_cons, ih,
        SourceLine.words_cons, width_of_statement hs]

theorem names_statementsOf (ls : List SourceLine) :
    Statement.names (statementsOf ls) = ls.filterMap name? := by
  rw [Statement.names, statementsOf, List.filterMap_filterMap]
  rfl

/-- Where a statement stands among the statements, there is its line among the lines. -/
theorem line_of_statement {ls : List SourceLine} {as bs : List Statement} {s : Statement}
    (h : statementsOf ls = as ++ s :: bs) :
    ∃ before line after, ls = before ++ line :: after ∧ line.statement = some s ∧
      words before = Statement.words as := by
  obtain ⟨before, rest, rfl, hbefore, hrest⟩ := List.filterMap_eq_append_iff.1 h
  obtain ⟨skipped, line, after, rfl, hskip, hline, -⟩ := List.filterMap_eq_cons_iff.1 hrest
  have hnone : statementsOf skipped = [] := List.filterMap_eq_nil_iff.2 hskip
  refine ⟨before ++ skipped, line, after, ?_, hline, ?_⟩
  · rw [List.append_assoc]
  · rw [SourceLine.words_append, ← words_statementsOf skipped, hnone, Statement.words_nil, Nat.add_zero,
      ← words_statementsOf before]
    exact congrArg Statement.words hbefore

/-! ## No warnings -/

/-- One line's entry adds its name and nothing else. -/
theorem find?_enter_line {i pc : Nat} {line : SourceLine} {ls : List SourceLine}
    (h : Placed i pc (line :: ls)) (map : AddressMap) (x : Text) :
    OrderedMap.find? (enter map [line]) x = none ↔
      line.name? ≠ some x ∧ OrderedMap.find? map x = none := by
  cases h with
  | skip _ _ =>
    rw [enter_skip rfl, name?]
    exact ⟨fun h => ⟨by simp, h⟩, fun h => h.2⟩
  | @statement _ _ raw s _ _ _ _ =>
    rw [enter_statement, name?_of_statement rfl, define]
    cases hs : s.name? with
    | none => exact ⟨fun h => ⟨by simp, h⟩, fun h => h.2⟩
    | some name =>
      show OrderedMap.find? (OrderedMap.insert map name _) x = none ↔ _
      rw [OrderedMap.find?_insert]
      by_cases hx : name = x
      · simp [hx]
      · simp [hx]

theorem skipped_eq_nil_iff (index : Nat) (raw : Text) : skipped index raw = [] ↔ raw.blank = true := by
  unfold skipped
  by_cases hb : raw.blank = true
  · simp [hb]
  · simp [hb]

theorem redefinition_eq_nil_iff {s : Statement} {name : Text} (hs : s.name? = some name)
    (map : AddressMap) (index : Nat) :
    redefinition map index s = [] ↔ OrderedMap.find? map name = none := by
  unfold redefinition
  cases hfind : OrderedMap.find? map name with
  | none => simp only [hs, hfind]
  | some e => simp only [hs, hfind, reduceCtorEq]

/-- **Doubts**: none, exactly when lines that hold something are statements, no two lines define one
    name, and none defines a name that the map has. -/
theorem doubts_eq_nil_iff {i pc : Nat} {ls : List SourceLine} (h : Placed i pc ls) (map : AddressMap) :
    doubts map ls = [] ↔
      (∀ line ∈ ls, line.statement = none → line.text.blank = true) ∧ (ls.filterMap name?).Nodup ∧
        ∀ x ∈ ls.filterMap name?, OrderedMap.find? map x = none := by
  induction ls generalizing i pc map with
  | nil => simp [doubts]
  | cons line ls ih =>
    have henter := find?_enter_line h map
    obtain ⟨j, qc, hp⟩ := h.tail
    rw [doubts, List.append_eq_nil_iff, ih hp]
    cases hs : line.statement with
    | none =>
      -- the line enters nothing: only what it holds matters
      have hname : line.name? = none := by simp [name?, hs]
      simp only [skipped_eq_nil_iff, List.filterMap_cons_none hname, List.forall_mem_cons, hs,
        enter_skip hs, forall_const, and_assoc]
    | some s =>
      have hname : line.name? = s.name? := name?_of_statement hs
      simp only [List.forall_mem_cons, hs, reduceCtorEq, false_implies, true_and]
      cases hn : s.name? with
      | none =>
        rw [hn] at hname
        have henter : ∀ x, OrderedMap.find? (enter map [line]) x = none ↔
            OrderedMap.find? map x = none := fun x => by rw [henter x, hname]; simp
        simp only [redefinition, hn, true_and, List.filterMap_cons_none hname, henter]
      | some name =>
        rw [hn] at hname
        -- the names behind must avoid this one as well as the map
        have hbehind : (∀ x ∈ ls.filterMap name?, OrderedMap.find? (enter map [line]) x = none) ↔
            name ∉ ls.filterMap name? ∧
              ∀ x ∈ ls.filterMap name?, OrderedMap.find? map x = none := by
          constructor
          · intro hall
            refine ⟨fun hmem => ?_, fun x hx => ((henter x).1 (hall x hx)).2⟩
            exact ((henter name).1 (hall name hmem)).1 hname
          · rintro ⟨hnot, hall⟩ x hx
            refine (henter x).2 ⟨fun hsame => hnot ?_, hall x hx⟩
            rw [hname] at hsame
            rw [Option.some.inj hsame]
            exact hx
        rw [redefinition_eq_nil_iff hn, hbehind, List.filterMap_cons_some hname, List.nodup_cons,
          List.forall_mem_cons]
        tauto

/-- A line that holds nothing, or is a statement. -/
def Meaningful (line : Text) : Prop :=
  line.blank = true ∨ ∃ s, Statement.read line = .ok (some s)

/-- **No warnings**: exactly when every line of the text that holds something is a statement and no name
    is defined twice. -/
theorem warnings_eq_nil_iff (h : ofText t = .ok l) :
    l.warnings = [] ↔ (∀ line ∈ t.lines, Meaningful line) ∧ (Statement.names t.statements).Nodup := by
  obtain ⟨htexts, hreads⟩ := lines_of_ofText h
  have hempty : ∀ x ∈ l.lines.filterMap name?,
      OrderedMap.find? (OrderedMap.empty : AddressMap) x = none := fun _ _ => rfl
  have hlines : (∀ line ∈ l.lines, line.statement = none → line.text.blank = true) ↔
      ∀ line ∈ t.lines, Meaningful line := by
    rw [← htexts, List.forall_mem_map]
    refine forall₂_congr fun line hl => ?_
    have hread := hreads line hl
    unfold Meaningful
    rw [hread]
    cases hs : line.statement with
    | none => simp
    | some s => simp
  rw [warnings_of_ofText h, doubts_eq_nil_iff (placed_of_ofText h), hlines, ← names_statementsOf,
    statements_of_ofText h]
  simp only [names_statementsOf, ← statements_of_ofText h] at hempty ⊢
  exact and_congr_right fun _ => and_iff_left hempty

end Layout

end Minicore
