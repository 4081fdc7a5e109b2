/-
  STREAMS — generated code, split by where it ends up.

  Problem: code and declarations come out of the generator in one pass over the tree, but in the program
  all code stands first and the declarations follow it by kind.

  1. **Program** — an `Emission` is what a piece of the tree contributes: body statements, temporaries,
     and declarations of variables and tables; emissions are put one behind another.  `Streams` is what
     has been gathered so far, as text, and `Streams.extend` adds an emission: a variable is declared by
     its FIRST declaration, a table has the content of its LAST.

  2. **The program text** — `Streams.text`: body, halt loop, constants, temporaries, tables, variables.
     The halt loop comes directly behind the code, so running off its end never runs into data.
-/
import Minicore.Assembly.Statement
import Minicore.Codegen.Name
import Minicore.OrderedMap

namespace Minicore

/-! ## What a piece of the tree contributes -/

/-- A declaration behind the code. -/
inductive Declaration where
  | variable (name : Text)
  /-- A table of `size` cells with the value `default`. -/
  | table (name : Text) (size default : UInt16)
  deriving Repr, DecidableEq

/-- Body statements, temporaries with their first values, and declarations, each in order. -/
structure Emission where
  body : List Statement
  temps : List (Nat × UInt16)
  declarations : List Declaration
  deriving Repr, DecidableEq

namespace Emission

/-- No contribution. -/
def empty : Emission := ⟨[], [], []⟩

/-- One contribution behind another. -/
def append (a b : Emission) : Emission :=
  ⟨a.body ++ b.body, a.temps ++ b.temps, a.declarations ++ b.declarations⟩

instance : Append Emission := ⟨append⟩

theorem append_def (a b : Emission) :
    a ++ b = ⟨a.body ++ b.body, a.temps ++ b.temps, a.declarations ++ b.declarations⟩ := rfl

@[simp] theorem body_append (a b : Emission) : (a ++ b).body = a.body ++ b.body := rfl

@[simp] theorem temps_append (a b : Emission) : (a ++ b).temps = a.temps ++ b.temps := rfl

@[simp] theorem declarations_append (a b : Emission) :
    (a ++ b).declarations = a.declarations ++ b.declarations := rfl

@[simp] theorem empty_append (a : Emission) : empty ++ a = a := rfl

@[simp] theorem append_empty (a : Emission) : a ++ empty = a := by
  simp [append_def, empty]

theorem append_assoc (a b c : Emission) : a ++ b ++ c = a ++ (b ++ c) := by
  simp [append_def, List.append_assoc]

end Emission

/-! ## What has been gathered -/

/-- Code and declarations as text; a declaration is a name and its content. -/
structure Streams where
  body : List Text
  temps : List (Text × Text)
  tables : OrderedMap Text
  vars : OrderedMap Text
  deriving Repr

namespace Streams

/-- Nothing has been gathered. -/
def empty : Streams := ⟨[], [], OrderedMap.empty, OrderedMap.empty⟩

/-- A body line: a label stands at the margin, an instruction is indented. -/
def bodyLine : Statement → Text
  | .label name => name
  | s => "    ".toList ++ s.text

/-- The content of a temporary or a variable. -/
def cellContent (v : UInt16) : Text := Numeral.hexLiteral v.toNat

/-- The content of a table. -/
def tableContent (size default : UInt16) : Text :=
  Text.join "," (List.replicate size.toNat (cellContent default))

/-- The streams after one more declaration. -/
def declare (s : Streams) : Declaration → Streams
  | .variable x => { s with vars := s.vars.insertNew (Cell.var x).name (cellContent 0) }
  | .table x size default =>
    { s with tables := s.tables.insert (tableName x) (tableContent size default) }

/-- The streams after one more emission. -/
def extend (s : Streams) (e : Emission) : Streams :=
  e.declarations.foldl declare
    { s with
      body := s.body ++ e.body.map bodyLine
      temps := s.temps ++ e.temps.map fun t => ((Cell.temp t.1).name, cellContent t.2) }

/-! ## The program text -/

/-- The halt loop and the constants between the code and its data. -/
def epilogue : List Text :=
  [bodyLine (.label haltName), bodyLine (.code .b (some (.symbol haltName))), [],
   Statement.declarationText Cell.one.name (cellContent 1),
   Statement.declarationText Cell.zero.name (cellContent 0)]

/-- The lines of the program. -/
def lines (s : Streams) : List Text :=
  s.body ++ epilogue ++
    (s.temps ++ s.tables.entries ++ s.vars.entries).map fun d => Statement.declarationText d.1 d.2

/-- The program. -/
def text (s : Streams) : Text := s.lines.flatMap fun l => l ++ ['\n']

end Streams

example : Streams.empty.text =
    "halt\n    B halt\n\nconst_1 DCB 0x1\nconst_0 DCB 0x0\n".toList := by decide

end Minicore
