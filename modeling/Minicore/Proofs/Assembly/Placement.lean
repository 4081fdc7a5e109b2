/-
  PLACEMENT — what the first pass makes of the lines of a text.

  Problem: the first pass is one walk with two things in its hands, the address of the next word and
  the map so far.  Everything that is said of a layout later (addresses, the map, the warnings) is a
  fact about this walk, and it should be walked through ONCE.

  1. **Invariant** — `Placed i pc ls`: the lines `ls` are numbered from `i` on, each holds what its
     text reads as, and each statement stands at the word that the widths before it give, `pc` for
     the first, with all its words inside the image.

  2. **Spec lemma** — `place_spec`: a layout that `place` returns has placed lines, its size is `pc`
     and the words of the lines, and its map is the given one with the entries of the lines put in, in
     line order.

  3. **Readings** — an invariant about a list is used at ONE line, so it is read off a decomposition
     `before ++ line :: after` (`Placed.at_line`).
-/
import Minicore.Assembly.Layout
import Mathlib.Algebra.GroupWithZero.Nat
import Mathlib.Data.List.Nodup

namespace Minicore

namespace SourceLine

/-! ## What a line contributes -/

/-- The number of words that the line takes. -/
def width (l : SourceLine) : Nat := (l.statement.map Statement.width).getD 0

/-- The name that the line defines. -/
def name? (l : SourceLine) : Option Text := l.statement.bind Statement.name?

/-- The name that the line defines, with what the map says of it. -/
def definition? (l : SourceLine) : Option (Text × Entry) :=
  match l.statement, l.address with
  | some s, some a => s.name?.map fun name => (name, ⟨l.index, Layout.definition s, a⟩)
  | _, _ => none

/-- The number of words of these lines. -/
def words (ls : List SourceLine) : Nat := (ls.map width).sum

@[simp] theorem words_nil : words [] = 0 := rfl

@[simp] theorem words_cons (l : SourceLine) (ls : List SourceLine) :
    words (l :: ls) = l.width + words ls := by
  simp [words]

@[simp] theorem words_append (as bs : List SourceLine) : words (as ++ bs) = words as + words bs := by
  simp [words]

theorem width_of_statement {l : SourceLine} {s : Statement} (h : l.statement = some s) :
    l.width = s.width := by
  simp [width, h]

theorem width_of_no_statement {l : SourceLine} (h : l.statement = none) : l.width = 0 := by
  simp [width, h]

theorem name?_of_statement {l : SourceLine} {s : Statement} (h : l.statement = some s) :
    l.name? = s.name? := by
  simp [name?, h]

theorem definition?_of_statement {l : SourceLine} {s : Statement} {a : UInt16}
    (hs : l.statement = some s) (ha : l.address = some a) :
    l.definition? = s.name?.map fun name => (name, ⟨l.index, Layout.definition s, a⟩) := by
  simp [definition?, hs, ha]

end SourceLine

namespace Layout

open SourceLine

/-! ## The invariant -/

/-- The lines are numbered from `i` on, say what their text says, and stand at the words that the
    widths of the statements give, the first at `pc`. -/
inductive Placed : Nat → Nat → List SourceLine → Prop
  | nil {i pc : Nat} : Placed i pc []
  /-- A line that is no statement has no address. -/
  | skip {i pc : Nat} {raw : Text} {ls : List SourceLine} :
      Statement.read raw = .ok none → Placed (i + 1) pc ls →
      Placed i pc (⟨i, raw, none, none⟩ :: ls)
  /-- A statement stands at `pc` and fits the image. -/
  | statement {i pc : Nat} {raw : Text} {s : Statement} {ls : List SourceLine} :
      Statement.read raw = .ok (some s) → pc + s.width ≤ imageDepth →
      Placed (i + 1) (pc + s.width) ls →
      Placed i pc (⟨i, raw, some s, some (UInt16.ofNat pc)⟩ :: ls)

/-- The map after the entries of these lines. -/
def enter (map : AddressMap) (ls : List SourceLine) : AddressMap :=
  (ls.filterMap definition?).foldl (fun m e => OrderedMap.insert m e.1 e.2) map

/-- The warnings about these lines when the names of `map` are known. -/
def doubts (map : AddressMap) : List SourceLine → List Warning
  | [] => []
  | l :: ls =>
    (match l.statement with
      | none => skipped l.index l.text
      | some s => redefinition map l.index s) ++ doubts (enter map [l]) ls

theorem enter_cons (map : AddressMap) (l : SourceLine) (ls : List SourceLine) :
    enter map (l :: ls) = enter (enter map [l]) ls := by
  cases h : l.definition? <;> simp [enter, h]

/-- A line without a statement enters nothing. -/
theorem enter_skip {map : AddressMap} {l : SourceLine} (h : l.statement = none) :
    enter map [l] = map := by
  simp [enter, definition?, h]

/-- What a statement enters is what the walk puts into its map. -/
theorem enter_statement (map : AddressMap) (i pc : Nat) (raw : Text) (s : Statement) :
    enter map [⟨i, raw, some s, some (UInt16.ofNat pc)⟩] = define map i pc s := by
  cases h : s.name? <;> simp [enter, definition?, define, h]

/-! ## The walk -/

/-- **Pass one**: the lines are placed, the size counts their words, the map holds their entries and
    the warnings are their doubts. -/
theorem place_spec {i pc : Nat} {map : AddressMap} {raws : List Text} {l : Layout}
    (h : place i pc map raws = .ok l) :
    Placed i pc l.lines ∧ l.size = pc + words l.lines ∧ l.map = enter map l.lines ∧
      l.warnings = doubts map l.lines := by
  -- along the lines, for every counter and every map that they start with
  induction raws generalizing i pc map l with
  | nil =>
    simp only [place, Except.ok.injEq] at h
    subst h
    exact ⟨.nil, rfl, rfl, rfl⟩
  | cons raw raws ih =>
    simp only [place] at h
    split at h
    · cases h
    · rename_i hread
      split at h
      · cases h
      · rename_i rest hrest
        obtain ⟨hp, hs, hm, hw⟩ := ih hrest
        simp only [Except.ok.injEq] at h
        subst h
        have hskip : enter map [⟨i, raw, none, none⟩] = map := enter_skip rfl
        refine ⟨.skip hread hp, ?_, ?_, ?_⟩
        · rw [words_cons, width_of_no_statement rfl, Nat.zero_add]
          exact hs
        · rw [enter_cons, hskip]
          exact hm
        · rw [doubts, hskip, ← hw]
    · rename_i s hread
      split at h
      · cases h
      · rename_i hfit
        split at h
        · cases h
        · rename_i rest hrest
          obtain ⟨hp, hs, hm, hw⟩ := ih hrest
          simp only [Except.ok.injEq] at h
          subst h
          have henter := enter_statement map i pc raw s
          refine ⟨.statement hread (by omega) hp, ?_, ?_, ?_⟩
          · rw [words_cons, width_of_statement rfl, ← Nat.add_assoc]
            exact hs
          · rw [enter_cons, henter]
            exact hm
          · rw [doubts, henter, ← hw]

/-! ## Reading the invariant at one line -/

/-- What stands behind a stretch of placed lines is placed behind their words. -/
theorem Placed.drop {i pc : Nat} {before ls : List SourceLine} (h : Placed i pc (before ++ ls)) :
    Placed (i + before.length) (pc + words before) ls := by
  induction before generalizing i pc with
  | nil => exact h
  | cons b before ih =>
    rw [words_cons, List.length_cons]
    cases h with
    | skip _ hp =>
      have := ih hp
      rw [width_of_no_statement rfl]
      rwa [show i + (before.length + 1) = i + 1 + before.length by omega, Nat.zero_add]
    | statement _ _ hp =>
      have := ih hp
      rw [width_of_statement rfl]
      rwa [show i + (before.length + 1) = i + 1 + before.length by omega, ← Nat.add_assoc]

/-- A stretch of placed lines is placed. -/
theorem Placed.take {i pc : Nat} {before ls : List SourceLine} (h : Placed i pc (before ++ ls)) :
    Placed i pc before := by
  induction before generalizing i pc with
  | nil => exact .nil
  | cons b before ih =>
    cases h with
    | skip hread hp => exact .skip hread (ih hp)
    | statement hread hfit hp => exact .statement hread hfit (ih hp)

/-- What stands behind one placed line is placed. -/
theorem Placed.tail {i pc : Nat} {line : SourceLine} {ls : List SourceLine}
    (h : Placed i pc (line :: ls)) : ∃ j qc, Placed j qc ls := by
  cases h with
  | skip _ hp => exact ⟨_, _, hp⟩
  | statement _ _ hp => exact ⟨_, _, hp⟩

/-- The index of a line counts the lines before it, the line says what its text says, and a statement
    stands behind the words before it, with all its words inside the image. -/
theorem Placed.at_line {i pc : Nat} {before after : List SourceLine} {l : SourceLine}
    (h : Placed i pc (before ++ l :: after)) :
    l.index = i + before.length ∧ Statement.read l.text = .ok l.statement ∧
      l.address = l.statement.map (fun _ => UInt16.ofNat (pc + words before)) ∧
      (l.statement ≠ none → pc + words before + l.width ≤ imageDepth) := by
  cases h.drop with
  | skip hread _ => exact ⟨rfl, hread, rfl, fun hs => absurd rfl hs⟩
  | statement hread hfit _ => exact ⟨rfl, hread, rfl, fun _ => hfit⟩

/-- Placed lines are numbered upwards. -/
theorem Placed.pairwise_index {i pc : Nat} {ls : List SourceLine} (h : Placed i pc ls) :
    ls.Pairwise fun l l' => l.index < l'.index := by
  induction ls generalizing i pc with
  | nil => exact .nil
  | cons l ls ih =>
    obtain ⟨_, _, htail⟩ := h.tail
    refine List.pairwise_cons.2 ⟨fun l' hl' => ?_, ih htail⟩
    obtain ⟨between, after, rfl⟩ := List.append_of_mem hl'
    have hfront : Placed i pc ([] ++ l :: (between ++ l' :: after)) := h
    have hlater : Placed i pc ((l :: between) ++ l' :: after) := h
    rw [hfront.at_line.1, hlater.at_line.1, List.length_cons, List.length_nil]
    omega

/-- Placed lines with one number are one line. -/
theorem Placed.eq_of_index {i pc : Nat} {ls : List SourceLine} (h : Placed i pc ls)
    {l l' : SourceLine} (hl : l ∈ ls) (hl' : l' ∈ ls) (hindex : l.index = l'.index) : l = l' := by
  have hnodup : (ls.map SourceLine.index).Nodup :=
    List.pairwise_map.2 (h.pairwise_index.imp Nat.ne_of_lt)
  exact List.inj_on_of_nodup_map hnodup hl hl' hindex

/-- The words of placed lines stay inside the image. -/
theorem Placed.le_depth {i pc : Nat} {ls : List SourceLine} (h : Placed i pc ls)
    (hpc : pc ≤ imageDepth) : pc + words ls ≤ imageDepth := by
  induction h with
  | nil => exact hpc
  | skip _ _ ih =>
    rw [words_cons, width_of_no_statement rfl, Nat.zero_add]
    exact ih hpc
  | statement _ hfit _ ih =>
    rw [words_cons, width_of_statement rfl, ← Nat.add_assoc]
    exact ih hfit

/-- An address inside the image is a 16-bit number. -/
theorem toNat_ofNat_of_le_depth {n : Nat} (h : n ≤ imageDepth) : (UInt16.ofNat n).toNat = n :=
  toNat_ofNat_of_le (Nat.le_trans h (by decide))

/-! ## Layouts of a text -/

section OfText

variable {t : Text} {l : Layout}

theorem placed_of_ofText (h : ofText t = .ok l) : Placed 0 0 l.lines := (place_spec h).1

/-- The index of a line counts the lines before it, and the line says what its text reads as; if that is
    a statement, it stands at the words before it. -/
theorem line_of_ofText (h : ofText t = .ok l) {before after : List SourceLine} {line : SourceLine}
    (hl : l.lines = before ++ line :: after) :
    line.index = before.length ∧ Statement.read line.text = .ok line.statement ∧
      line.address = line.statement.map fun _ => UInt16.ofNat (words before) := by
  have hp := placed_of_ofText h
  rw [hl] at hp
  obtain ⟨hindex, hread, haddress, -⟩ := hp.at_line
  rw [Nat.zero_add] at hindex haddress
  exact ⟨hindex, hread, haddress⟩

/-- The lines are those of the text, and each says what it reads as. -/
theorem lines_of_ofText (h : ofText t = .ok l) : l.lines.map SourceLine.text = t.lines ∧
    ∀ line ∈ l.lines, Statement.read line.text = .ok line.statement := by
  refine ⟨map_text_of_place h, fun line hl => ?_⟩
  obtain ⟨before, after, hlines⟩ := List.append_of_mem hl
  exact (line_of_ofText h hlines).2.1

theorem size_of_ofText (h : ofText t = .ok l) : l.size = words l.lines := by
  rw [(place_spec h).2.1, Nat.zero_add]

theorem map_of_ofText (h : ofText t = .ok l) :
    l.map = OrderedMap.ofList (l.lines.filterMap definition?) := (place_spec h).2.2.1

theorem warnings_of_ofText (h : ofText t = .ok l) :
    l.warnings = doubts OrderedMap.empty l.lines := (place_spec h).2.2.2

theorem size_le_of_ofText (h : ofText t = .ok l) : l.size ≤ imageDepth := by
  have := (placed_of_ofText h).le_depth (Nat.zero_le _)
  rw [size_of_ofText h]
  omega

/-- The address of a statement is the number of words before it, and its words are inside the
    image. -/
theorem address_of_ofText (h : ofText t = .ok l) {before after : List SourceLine} {line : SourceLine}
    {s : Statement} (hl : l.lines = before ++ line :: after) (hs : line.statement = some s) :
    line.address = some (UInt16.ofNat (words before)) ∧
      (UInt16.ofNat (words before)).toNat = words before ∧ words before + s.width ≤ l.size := by
  obtain ⟨-, -, ha⟩ := line_of_ofText h hl
  have hsize := size_of_ofText h
  have hle := size_le_of_ofText h
  rw [hl, words_append, words_cons, width_of_statement hs] at hsize
  refine ⟨by rw [ha, hs]; rfl, toNat_ofNat_of_le_depth (by omega), by omega⟩

end OfText

end Layout

end Minicore
