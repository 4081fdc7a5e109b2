/-
  LAYOUT — the first pass: every line is read and gets its address.

  Problem: an instruction may refer to a name that is defined further down, so addresses are needed
  before any word can be written.

  1. **Program** — `Layout.place` walks the lines with the address of the next word (`pc`) and the map
     so far.  A statement gets the address `pc` and moves it on by its width; a name it defines is put
     into the map; a line that is no statement gets no address.

  2. **Order of faults** — the FIRST bad line decides.  On one line a reading fault comes before an
     overflow, and an overflow is noticed before the name is entered.

  3. **Warnings** — one per line at most: a line that holds something but is no statement is skipped;
     a line that defines a known name again names the line whose definition it replaces.
-/
import Minicore.Assembly.AddressMap
import Minicore.Assembly.Record
import Minicore.Assembly.Statement

namespace Minicore

/-! ## Lines and warnings -/

/-- A line of the source: its index, its text, what it says and where its words begin. -/
structure SourceLine where
  index : Nat
  text : Text
  statement : Option Statement
  address : Option UInt16
  deriving Repr, DecidableEq

/-- What is doubtful about a line that does not stop the assembly. -/
inductive Doubt where
  /-- The line is no statement. -/
  | ignored
  /-- The name is defined already, on the line of that index. -/
  | redefined (name : Text) (earlier : Nat)
  deriving Repr, DecidableEq

/-- The wording of a doubt. -/
def Doubt.message : Doubt → Text
  | .ignored => "Line is not an instruction, label or declaration; skipped".toList
  | .redefined name earlier =>
    "Re-defined label: `".toList ++ name ++ "` (first defined at line ".toList ++
      Numeral.decimal (earlier + 1) ++ "), the later value is used".toList

/-- A doubt, and the index of the line it is about. -/
structure Warning where
  index : Nat
  doubt : Doubt
  deriving Repr, DecidableEq

/-! ## The layout of a text -/

/-- The lines with their addresses, the address map, the number of words, and the warnings. -/
structure Layout where
  lines : List SourceLine
  map : AddressMap
  size : Nat
  warnings : List Warning
  deriving Repr

namespace Layout

/-- What the map says of a name that a statement defines. -/
def definition : Statement → Definition
  | .data _ values => .data values.length
  | _ => .label

/-- The map after a statement at address `pc` on line `index`. -/
def define (map : AddressMap) (index pc : Nat) (s : Statement) : AddressMap :=
  match s.name? with
  | none => map
  | some name => OrderedMap.insert map name ⟨index, definition s, UInt16.ofNat pc⟩

/-- The warning about a statement whose name the map knows. -/
def redefinition (map : AddressMap) (index : Nat) (s : Statement) : List Warning :=
  match s.name? with
  | none => []
  | some name =>
    match OrderedMap.find? map name with
    | none => []
    | some e => [⟨index, .redefined name e.line⟩]

/-- The warning about a line that is no statement. -/
def skipped (index : Nat) (raw : Text) : List Warning :=
  if raw.blank then [] else [⟨index, .ignored⟩]

/-- The layout of the lines from `index` on, when `pc` words and the names of `map` come before. -/
def place (index pc : Nat) (map : AddressMap) : List Text → Except Fault Layout
  | [] => .ok ⟨[], map, pc, []⟩
  | raw :: rest =>
    match Statement.read raw with
    | .error cause => .error ((Fault.ofCause cause).locate index raw)
    | .ok none =>
      match place (index + 1) pc map rest with
      | .error e => .error e
      | .ok l =>
        .ok ⟨⟨index, raw, none, none⟩ :: l.lines, l.map, l.size, skipped index raw ++ l.warnings⟩
    | .ok (some s) =>
      if pc + s.width > imageDepth then
        .error ((Fault.ofCause (.imageOverflow (pc + s.width) imageDepth)).locate index raw)
      else
        match place (index + 1) (pc + s.width) (define map index pc s) rest with
        | .error e => .error e
        | .ok l =>
          .ok ⟨⟨index, raw, some s, some (UInt16.ofNat pc)⟩ :: l.lines, l.map, l.size,
            redefinition map index s ++ l.warnings⟩

/-- The layout of a whole text. -/
def ofText (t : Text) : Except Fault Layout := place 0 0 OrderedMap.empty t.lines

/-- Every line of the source is a line of the layout, in order. -/
theorem map_text_of_place {index pc : Nat} {map : AddressMap} {raws : List Text} {l : Layout}
    (h : place index pc map raws = .ok l) : l.lines.map SourceLine.text = raws := by
  induction raws generalizing index pc map l with
  | nil =>
    simp only [place, Except.ok.injEq] at h
    subst h; rfl
  | cons raw raws ih =>
    simp only [place] at h
    split at h
    · cases h
    · split at h
      · cases h
      · rename_i l' hl'
        simp only [Except.ok.injEq] at h
        subst h
        simp [ih hl']
    · split at h
      · cases h
      · split at h
        · cases h
        · rename_i l' hl'
          simp only [Except.ok.injEq] at h
          subst h
          simp [ih hl']

end Layout

end Minicore
