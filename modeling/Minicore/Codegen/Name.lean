/-
  GENERATED NAMES — what the generator calls its places.

  Problem: the names in generated code must not run into one another: those of temporary cells, of
  variables, of tables, of branch targets, and the fixed ones.

  1. **Program** — a `Cell` is a temporary, a variable or one of the two constants; a `Label` is a role
     and a number.  Each kind of name has its own beginning (`temp_`, `var_`, `tab_`, `const_`, one per
     role), so names of different kinds differ whatever follows.

  2. **Numbers** — `Names` counts the temporaries and the labels handed out so far.  The counters are
     natural numbers: they have no end.
-/
import Minicore.Text.Numeral

namespace Minicore

/-! ## Cells -/

/-- A memory cell that holds a value. -/
inductive Cell where
  /-- The temporary of that number. -/
  | temp (number : Nat)
  /-- The variable of that name. -/
  | var (name : Text)
  /-- The constant zero. -/
  | zero
  /-- The constant one. -/
  | one
  deriving Repr, DecidableEq

/-- The name of a cell in the generated code. -/
def Cell.name : Cell → Text
  | .temp n => "temp_".toList ++ Numeral.decimal n
  | .var x => "var_".toList ++ x
  | .zero => "const_0".toList
  | .one => "const_1".toList

/-- The name of a table in the generated code. -/
def tableName (x : Text) : Text := "tab_".toList ++ x

/-! ## Labels -/

/-- What a branch target is for. -/
inductive LabelRole where
  /-- The alternative of a conditional. -/
  | alternative
  /-- The end of a conditional. -/
  | endIf
  /-- The start of a loop. -/
  | loop
  /-- The end of a loop. -/
  | endLoop
  /-- A comparison that holds. -/
  | holds
  /-- The end of a comparison. -/
  | join
  deriving Repr, DecidableEq

/-- The word in front of the number. -/
def LabelRole.word : LabelRole → Text
  | .alternative => "else_".toList
  | .endIf => "end_".toList
  | .loop => "loop_".toList
  | .endLoop => "endloop_".toList
  | .holds => "true_".toList
  | .join => "join_".toList

/-- A branch target. -/
structure Label where
  role : LabelRole
  number : Nat
  deriving Repr, DecidableEq

/-- The name of a branch target. -/
def Label.name (l : Label) : Text := l.role.word ++ Numeral.decimal l.number

/-- The label at the end of every program. -/
def haltName : Text := "halt".toList

/-! ## Counters -/

/-- How many temporaries and how many labels have been numbered. -/
structure Names where
  temps : Nat
  labels : Nat
  deriving Repr, DecidableEq

namespace Names

/-- Nothing has been numbered. -/
def fresh : Names := ⟨0, 0⟩

/-- The next temporary. -/
def nextTemp (n : Names) : Cell × Names := (.temp (n.temps + 1), ⟨n.temps + 1, n.labels⟩)

/-- The next label number. -/
def nextLabel (n : Names) : Nat × Names := (n.labels + 1, ⟨n.temps, n.labels + 1⟩)

end Names

example : (Names.fresh.nextTemp.1).name = "temp_1".toList := by decide
example : Label.name ⟨.endLoop, 12⟩ = "endloop_12".toList := by decide

end Minicore
