/-
  STATEMENTS — what one source line says.

  Problem: a line is an instruction, a label, a data declaration, or nothing at all.

  1. **Program** — `Statement.read` asks the catalog first; then a line `name DCB values` declares
     data; then a line that is a single symbol is a label.  Everything else — blank lines and lines
     that make no sense — is no statement.

  2. **Specification** — the three forms exclude one another, because the first word of an
     instruction is a mnemonic and a mnemonic is no symbol.

  3. **Words** — an instruction takes one word of the image, a declaration one word per value, a
     label none: it names whatever word comes next.

  4. **The written form** — `Statement.text` writes a statement as a line that reads back as it: an
     instruction is its catalog shape with the parameter in the slot that takes it.
-/
import Minicore.Assembly.Fault

namespace Minicore

/-- A source line that means something. -/
inductive Statement where
  /-- An instruction and its parameter. -/
  | code (op : Opcode) (param : Option Param)
  /-- A name for the address of the next word. -/
  | label (name : Text)
  /-- A name for the first of these words. -/
  | data (name : Text) (values : List UInt16)
  deriving Repr, DecidableEq

namespace Statement

/-! ## Reading a line -/

/-- One value of a data declaration. -/
def readValue (t : Text) : Except Cause UInt16 :=
  match Literal.read t with
  | .ok v => .ok v
  | .error _ => .error (.invalidLiteral t)

/-- A comma-separated list of values; nothing but blanks is the empty list. -/
def readValues (list : Text) : Except Cause (List UInt16) :=
  if list.blank then .ok [] else (list.fields.map Text.trim).mapM readValue

/-- The statement of a line that is no instruction, from its words. -/
def ofWords : List Text → Except Cause (Option Statement)
  | [name] => .ok (if name.isSymbol then some (.label name) else none)
  | name :: keyword :: values =>
    if keyword == dataKeyword && name.isSymbol then
      (readValues (Text.join " " values)).map fun vs => some (.data name vs)
    else .ok none
  | [] => .ok none

/-- The statement of a line, if it is one. -/
def read (line : Text) : Except Cause (Option Statement) :=
  match Catalog.standard.classify line with
  | .error e => .error (Cause.ofClassify e)
  | .ok (some m) => .ok (some (.code m.op m.param))
  | .ok none => ofWords line.words

/-! ## What a statement takes and defines -/

/-- The number of image words. -/
def width : Statement → Nat
  | .code _ _ => 1
  | .label _ => 0
  | .data _ values => values.length

/-- The name that the statement defines. -/
def name? : Statement → Option Text
  | .code _ _ => none
  | .label name => some name
  | .data name _ => some name

/-! ## Writing a line -/

/-- A slot with the parameter in it, if it is one that takes a parameter. -/
def slotText (param : Option Param) : Slot → Text
  | .value => '#' :: (param.map Param.text).getD []
  | .label => (param.map Param.text).getD []
  | slot => slot.text

/-- An instruction, as its catalog shape is written. -/
def codeText (op : Opcode) (param : Option Param) : Text :=
  match Catalog.standard.find? op with
  | none => []
  | some p => p.mnemonic.name ++ ' ' :: Text.join ", " (p.slots.map (slotText param))

/-- The values of a declaration, as they are written. -/
def valuesText (values : List UInt16) : Text :=
  Text.join "," (values.map fun v => Numeral.hexLiteral v.toNat)

/-- A declaration of `content` under `name`. -/
def declarationText (name content : Text) : Text :=
  name ++ ' ' :: dataKeyword ++ ' ' :: content

/-- The statement as a source line. -/
def text : Statement → Text
  | .code op param => codeText op param
  | .label name => name
  | .data name values => declarationText name (valuesText values)

end Statement

/-! ## Running the program -/

example : Statement.read "\tend_2  ".toList = .ok (some (.label "end_2".toList)) := rfl
example : Statement.read "tab_t DCB 0x5,0x5, 0x5".toList =
    .ok (some (.data "tab_t".toList [5, 5, 5])) := rfl
example : Statement.read "tab_e DCB".toList = .ok (some (.data "tab_e".toList [])) := rfl
example : Statement.read "hello world".toList = .ok none := rfl
example : Statement.read "tab_t DCB 0x1,,0x1".toList = .error (.invalidLiteral []) := rfl
example : (Statement.code .mov1 (some (.symbol "temp_1".toList))).text = "MOV R1, #temp_1".toList := by
  decide
example : (Statement.code .wait (some (.literal 1000))).text = "WAIT #0x3E8".toList := by decide

end Minicore
