/-
  RENUMBERED CODE — the same code behind other counters.

  Problem: a generator numbers on from where it stands, and the numbers end up inside names, the names
  inside lines.  Code that differs in its counters alone should be told from its TEXT, line by line.

  1. **Program** — `Names.renumber a b` turns a name that was made while counting from `a` into the name
     made at the same point while counting from `b`: what stands before the first underscore says
     whether the number behind it counts temporaries, labels, or is no number at all.
     `Names.renumberLine` does so to a body line: it reads the line, renames, and writes it again.

  2. **Names** — on the names of cells, labels and tables the renumbering is what it should be
     (`renumber_cell`, `renumber_label`, `renumber_tableName`).

  3. **Code** — so the instruction sequences of renumbered cells and labels are the renamed sequences.
-/
import Minicore.Proofs.Assembly.Renaming
import Minicore.Proofs.Codegen.Readable

namespace Minicore

open Statement (AllReadable)

/-! ## Counters -/

namespace Names

/-- So many more temporaries and labels. -/
instance : Add Names := ⟨fun a b => ⟨a.temps + b.temps, a.labels + b.labels⟩⟩

@[simp] theorem temps_add (a b : Names) : (a + b).temps = a.temps + b.temps := rfl

@[simp] theorem labels_add (a b : Names) : (a + b).labels = a.labels + b.labels := rfl

theorem add_assoc (a b c : Names) : a + b + c = a + (b + c) := by
  show (⟨_, _⟩ : Names) = ⟨_, _⟩
  simp only [temps_add, labels_add, Nat.add_assoc]

theorem add_left_cancel {a b c : Names} (h : a + b = a + c) : b = c := by
  obtain ⟨ht, hl⟩ := Names.mk.inj h
  obtain ⟨bt, bl⟩ := b
  obtain ⟨ct, cl⟩ := c
  rw [show bt = ct from Nat.add_left_cancel ht, show bl = cl from Nat.add_left_cancel hl]

end Names

/-! ## Names -/

/-- The number behind the first underscore. -/
def Text.number (t : Text) : Nat := Nat.ofDigitChars 10 (t.drop (t.stem.length + 1)) 0

theorem Text.number_append {w : Text} (hw : w.all (fun c => c != '_') = true) (n : Nat) :
    number (w ++ '_' :: Numeral.decimal n) = n := by
  have hdrop : (w ++ '_' :: Numeral.decimal n).drop (w.length + 1) = Numeral.decimal n := by
    rw [List.drop_append, List.drop_eq_nil_of_le (Nat.le_succ _), Nat.add_sub_cancel_left]
    rfl
  rw [number, stem_append hw, hdrop, Numeral.decimal, Nat.ofDigitChars_ten_toDigits]

/-- The role of the labels with that stem. -/
def LabelRole.ofStem? (stem : Text) : Option LabelRole :=
  [LabelRole.alternative, .endIf, .loop, .endLoop, .holds, .join].find? fun r => r.word.dropLast == stem

/-- The cell that takes its place when the counting is from `b` instead of `a`. -/
def Cell.renumber (a b : Names) : Cell → Cell
  | .temp n => .temp (n + b.temps - a.temps)
  | c => c

/-- The label that takes its place. -/
def Label.renumber (a b : Names) (l : Label) : Label := ⟨l.role, l.number + b.labels - a.labels⟩

/-- The name that takes its place: temporaries and labels have their numbers shifted, all other names
    stay. -/
def Names.renumber (a b : Names) (name : Text) : Text :=
  if name.stem = "temp".toList then (Cell.temp (name.number + b.temps - a.temps)).name
  else
    match LabelRole.ofStem? name.stem with
    | some role => Label.name ⟨role, name.number + b.labels - a.labels⟩
    | none => name

section Renumbered

variable (a b : Names)

/-- **Cells.** -/
theorem renumber_cell (c : Cell) : a.renumber b c.name = (c.renumber a b).name := by
  cases c with
  | temp n =>
    have hnumber : (Cell.temp n).name.number = n := Text.number_append (w := "temp".toList) (by decide) n
    rw [Names.renumber, Cell.stem_temp, if_pos rfl, hnumber]
    rfl
  | var x =>
    rw [Names.renumber, Cell.stem_var, if_neg (by decide)]
    rfl
  | zero => rfl
  | one => rfl

/-- **Labels.** -/
theorem renumber_label (l : Label) : a.renumber b l.name = (l.renumber a b).name := by
  obtain ⟨role, n⟩ := l
  have hword : role.word = role.word.dropLast ++ ['_'] := by cases role <;> decide
  have hnumber : (Label.name ⟨role, n⟩).number = n := by
    have h := Text.number_append (w := role.word.dropLast) (by cases role <;> decide) n
    rwa [← List.singleton_append, ← List.append_assoc, ← hword] at h
  have hrole : LabelRole.ofStem? role.word.dropLast = some role := by cases role <;> decide
  have htemp : role.word.dropLast ≠ "temp".toList := by cases role <;> decide
  rw [Names.renumber, Label.stem_name, if_neg htemp, hrole, hnumber]
  rfl

/-- **Tables** are not numbered. -/
theorem renumber_tableName (x : Text) : a.renumber b (tableName x) = tableName x := by
  rw [Names.renumber, stem_tableName, if_neg (by decide)]
  rfl

/-! ## Code -/

/-- The statement with its names renumbered. -/
def Statement.renumber (s : Statement) : Statement := s.rename (a.renumber b)

namespace Code

@[simp] theorem renumber_plain (op : Opcode) : (plain op).renumber a b = plain op := rfl

@[simp] theorem renumber_address (c : Cell) :
    (address c.name).renumber a b = address (c.renumber a b).name := by
  rw [← renumber_cell]
  rfl

@[simp] theorem renumber_branch (op : Opcode) (l : Label) :
    (branch op l).renumber a b = branch op (l.renumber a b) := by
  rw [branch, branch, ← renumber_label]
  rfl

@[simp] theorem renumber_mark (l : Label) : (mark l).renumber a b = mark (l.renumber a b) := by
  rw [mark, mark, ← renumber_label]
  rfl

@[simp] theorem renumber_literal (op : Opcode) (v : UInt16) :
    (Statement.code op (some (.literal v))).renumber a b = .code op (some (.literal v)) := rfl

@[simp] theorem renumber_base (x : Text) : (base x).renumber a b = base x := by
  unfold base tableBase
  split
  · rfl
  · show Statement.code .mov1 (some (.symbol (a.renumber b (tableName x)))) = _
    rw [renumber_tableName]

@[simp] theorem renumber_load0 (c : Cell) :
    (load0 c).map (Statement.renumber a b) = load0 (c.renumber a b) := by
  simp [load0]

@[simp] theorem renumber_load3 (c : Cell) :
    (load3 c).map (Statement.renumber a b) = load3 (c.renumber a b) := by
  simp [load3]

@[simp] theorem renumber_store (c : Cell) :
    (store c).map (Statement.renumber a b) = store (c.renumber a b) := by
  simp [store]

@[simp] theorem renumber_copy (source target : Cell) :
    (copy source target).map (Statement.renumber a b) =
      copy (source.renumber a b) (target.renumber a b) := by
  simp [copy]

@[simp] theorem renumber_test (c : Cell) :
    (test c).map (Statement.renumber a b) = test (c.renumber a b) := by
  simp [test]

@[simp] theorem renumber_compare (op : Opcode) (n : Nat) :
    (compare op n).map (Statement.renumber a b) = compare op (n + b.labels - a.labels) := by
  simp [compare, Cell.renumber, Label.renumber]

end Code

@[simp] theorem renumber_operatorCode (op : Operator) (n : Nat) :
    (operatorCode op n).map (Statement.renumber a b) = operatorCode op (n + b.labels - a.labels) := by
  cases op <;> simp [operatorCode]

/-! ## Contributions -/

/-- The contribution with its names and its temporaries renumbered. -/
def Emission.renumber (e : Emission) : Emission :=
  ⟨e.body.map (Statement.renumber a b), e.temps.map fun t => (t.1 + b.temps - a.temps, t.2),
    e.declarations⟩

theorem Emission.renumber_append (e f : Emission) :
    (e ++ f).renumber a b = e.renumber a b ++ f.renumber a b := by
  simp only [renumber, append_def, List.map_append]

/-! ## Lines -/

/-- A body line with its names renumbered; a line that is no statement stays. -/
def Names.renumberLine (line : Text) : Text :=
  match Statement.read line with
  | .ok (some s) => Streams.bodyLine (s.renumber a b)
  | _ => line

/-- **Lines**: of readable statements, the lines of the renumbered ones are the renumbered lines. -/
theorem renumber_bodyLines {ss : List Statement} (h : AllReadable ss) :
    (ss.map (Statement.renumber a b)).map Streams.bodyLine =
      (ss.map Streams.bodyLine).map (a.renumberLine b) := by
  rw [List.map_map, List.map_map]
  refine List.map_congr_left fun s hs => ?_
  show Streams.bodyLine (s.renumber a b) = a.renumberLine b (Streams.bodyLine s)
  rw [Names.renumberLine, (Statement.read_bodyLine (h s hs)).2]

end Renumbered

example : Names.renumberLine ⟨2, 0⟩ ⟨7, 0⟩ "    MOV R1, #temp_3".toList = "    MOV R1, #temp_8".toList := by
  decide

end Minicore
