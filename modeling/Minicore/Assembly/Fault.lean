/-
  FAULTS of an assembly — what went wrong, and on which line.

  Problem: every fault has a cause; most are raised on a source line and are reported with that line.
  A fault that already knows its line keeps it.

  1. **Program** — a `Fault` is a `Cause` with an optional `Place`; `Fault.locate` adds the place if
     there is none.  So a fault has at most ONE place, by its type.

  2. **Wording** — `Cause.message` is the cause alone, `Fault.message` puts the line number in front,
     and `Fault.report` is the block that a person reads: cause, file and line, and the line itself.
-/
import Minicore.Machine.Catalog
import Minicore.Text.Terminal

namespace Minicore

/-! ## Causes -/

/-- What went wrong. -/
inductive Cause where
  /-- A number that is no 16-bit literal. -/
  | invalidLiteral (text : Text)
  /-- A name that no line defines. -/
  | unresolvedSymbol (name : Text)
  /-- A line that several patterns match. -/
  | ambiguousInstruction (line : Text) (ops : List Opcode)
  /-- More words than an image holds. -/
  | imageOverflow (words depth : Nat)
  /-- A file that cannot be read as text. -/
  | unreadableFile (path : Text)
  /-- A file that cannot be written. -/
  | unwritableFile (path : Text)
  /-- A line whose address is not the one that the words before it give. -/
  | movedLine (index : Nat)
  /-- An address beyond 16 bits. -/
  | addressOverflow
  deriving Repr, DecidableEq

/-- The wording of a cause. -/
def Cause.message : Cause → Text
  | .invalidLiteral text => "Invalid literal: `".toList ++ text ++ ['`']
  | .unresolvedSymbol name => "Unresolved symbol: `".toList ++ name ++ ['`']
  | .ambiguousInstruction line ops =>
    "Ambiguous instruction: `".toList ++ line ++ "` matches [".toList ++
      Text.join ", " (ops.map Opcode.name) ++ [']']
  | .imageOverflow words depth =>
    "Image overflow: ".toList ++ Numeral.decimal words ++
      " words do not fit in a depth of ".toList ++ Numeral.decimal depth
  | .unreadableFile path => "Failed to read file: ".toList ++ path
  | .unwritableFile path => "Failed to write file: ".toList ++ path
  | .movedLine index => "line ".toList ++ Numeral.decimal (index + 1) ++ " moved between passes".toList
  | .addressOverflow => "address beyond 16 bits".toList

/-- What the catalog has against a line. -/
def Cause.ofClassify : Catalog.Fault → Cause
  | .invalidLiteral text => .invalidLiteral text
  | .ambiguous line ops => .ambiguousInstruction line ops

/-! ## Faults with a place -/

/-- A source line: its number, counted from one, and its text as it stands in the source. -/
structure Place where
  line : Nat
  text : Text
  deriving Repr, DecidableEq

/-- A cause, and the line it was raised on if there is one. -/
structure Fault where
  cause : Cause
  place : Option Place
  deriving Repr, DecidableEq

namespace Fault

/-- A cause that belongs to no line. -/
def ofCause (c : Cause) : Fault := ⟨c, none⟩

/-- The fault on the line of that index, counted from zero; a place that is known already stays. -/
def locate (f : Fault) (index : Nat) (text : Text) : Fault :=
  match f.place with
  | some _ => f
  | none => ⟨f.cause, some ⟨index + 1, text⟩⟩

/-- A second place changes nothing. -/
theorem locate_locate (f : Fault) (i j : Nat) (s t : Text) :
    (f.locate i s).locate j t = f.locate i s := by
  obtain ⟨c, p⟩ := f
  cases p <;> rfl

/-- The wording, with the line number in front when there is one. -/
def message (f : Fault) : Text :=
  match f.place with
  | none => f.cause.message
  | some p => "line ".toList ++ Numeral.decimal p.line ++ ": ".toList ++ f.cause.message

/-! ## The report for a person -/

/-- A line of output that opens with the word for an error. -/
def errorLine (message : Text) : Text :=
  Terminal.bold .red "error".toList ++ ": ".toList ++ message ++ ['\n']

/-- The line that shows where in `file` something was found. -/
def pointer (file : Text) (line : Nat) : Text :=
  "     ".toList ++ Terminal.colour .blue "-->".toList ++ [' '] ++
    Terminal.underline (file ++ ':' :: Numeral.decimal line) ++ ['\n']

/-- The line that quotes a source line behind its number. -/
def quotation (line : Nat) (text : Text) : Text :=
  ' ' :: Terminal.colour .blue (Numeral.padLeft ' ' 4 (Numeral.decimal line) ++ " |".toList) ++
    ' ' :: text ++ ['\n']

/-- The bar above and below a quotation. -/
def bar : Text := "      ".toList ++ Terminal.colour .blue "|".toList ++ ['\n']

/-- The cause, and if the fault has a place the file, the line number and the quoted line. -/
def report (f : Fault) (file : Text) : Text :=
  errorLine f.cause.message ++
    match f.place with
    | none => []
    | some p => pointer file p.line ++ bar ++ quotation p.line p.text ++ bar

end Fault

end Minicore
