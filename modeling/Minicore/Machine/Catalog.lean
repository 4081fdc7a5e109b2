/-
  The CATALOG — an ordered table of instruction shapes, and the lines it recognises.

  Problem: given a source line, find the pattern whose mnemonic is the line's and whose slots take the
  line's operands, one by one.

  1. **Program** — `Catalog.ofPatterns` refuses a table in which two patterns have the same mnemonic
     and the same slots; `Catalog.classify` reads the operands from left to right and keeps the
     patterns that match.  It never PICKS among several matches: two or more are reported as such.

  2. **No overlap** — the four kinds of operand are spelled differently, so two patterns can match one
     line only if they are alike (`Pattern.like`), and a catalog holds no two alike patterns
     (`noOverlap`).

  3. **Order of faults** — operands are read in line order and the FIRST one that is no operand
     decides: a number that fits no word makes the line an error, anything else makes it no
     instruction, whatever stands further right.  A mnemonic that no pattern has ends the search
     before any operand is looked at.
-/
import Minicore.Machine.Operand
import Minicore.Machine.Opcode

namespace Minicore

/-! ## Patterns -/

/-- The shape of one instruction. -/
structure Pattern where
  op : Opcode
  mnemonic : Mnemonic
  slots : List Slot
  deriving Repr, DecidableEq

namespace Pattern

/-- The written form: the mnemonic, then the slots between commas. -/
def text (p : Pattern) : Text :=
  match p.slots with
  | [] => p.mnemonic.name
  | slots => p.mnemonic.name ++ ' ' :: Text.join ", " (slots.map Slot.text)

/-- Same mnemonic and same slots — the only way for two patterns to match one line. -/
def like (p q : Pattern) : Bool := p.mnemonic == q.mnemonic && p.slots == q.slots

/-- Every operand fits the slot at its position, and there are as many as slots. -/
def accepts (p : Pattern) (operands : List Operand) : Bool :=
  p.slots.length == operands.length && (p.slots.zip operands).all fun so => so.1.accepts so.2

end Pattern

/-! ## Tables without overlap -/

/-- Two patterns of one table that match the same lines. -/
structure Overlap where
  first : Pattern
  second : Pattern
  deriving Repr, DecidableEq

/-- The wording of an overlap. -/
def Overlap.message (o : Overlap) : Text :=
  "Patterns `".toList ++ o.first.text ++ "` and `".toList ++ o.second.text ++
    "` can match the same line".toList

/-- The first overlap of a table, by the position of its first pattern, then of its second. -/
def firstOverlap : List Pattern → Option Overlap
  | [] => none
  | p :: rest =>
    match rest.find? p.like with
    | some q => some ⟨p, q⟩
    | none => firstOverlap rest

/-- An ordered table of patterns, no two of them alike. -/
structure Catalog where
  patterns : List Pattern
  noOverlap : firstOverlap patterns = none

namespace Catalog

/-- The catalog of these patterns, or the first overlap among them. -/
def ofPatterns (ps : List Pattern) : Except Overlap Catalog :=
  match h : firstOverlap ps with
  | none => .ok ⟨ps, h⟩
  | some o => .error o

/-- The first pattern of that opcode. -/
def find? (c : Catalog) (op : Opcode) : Option Pattern := c.patterns.find? fun p => p.op == op

/-! ## Classifying a line -/

/-- A line recognised as an instruction: its opcode, and the first parameter among its operands. -/
structure Match where
  op : Opcode
  param : Option Param
  deriving Repr, DecidableEq

/-- Why a line that starts like an instruction is refused. -/
inductive Fault where
  /-- A number in an operand is no 16-bit literal. -/
  | invalidLiteral (text : Text)
  /-- More than one pattern matches the line. -/
  | ambiguous (line : Text) (ops : List Opcode)
  deriving Repr, DecidableEq

/-- The operands that trimmed tokens are.  The first token that is none decides: `none` for a token
    that is no operand, an error for a number that fits no word. -/
def readOperands : List Text → Except Text (Option (List Operand))
  | [] => .ok (some [])
  | token :: rest =>
    match Operand.read token with
    | .error text => .error text
    | .ok none => .ok none
    | .ok (some operand) =>
      match readOperands rest with
      | .error text => .error text
      | .ok none => .ok none
      | .ok (some operands) => .ok (some (operand :: operands))

/-- The trimmed operand tokens of what follows a mnemonic; nothing at all is no token. -/
def tokens (rest : Text) : List Text :=
  if rest.isEmpty then [] else rest.fields.map Text.trim

/-- The patterns of the catalog with that mnemonic, in table order. -/
def candidates (c : Catalog) (m : Mnemonic) : List Pattern :=
  c.patterns.filter fun p => p.mnemonic == m

/-- What the matching patterns make of a line: none is no instruction, one is the answer. -/
def decideMatch (line : Text) (operands : List Operand) :
    List Pattern → Except Fault (Option Match)
  | [] => .ok none
  | [p] => .ok (some ⟨p.op, operands.findSome? Operand.param?⟩)
  | ps => .error (.ambiguous line (ps.map Pattern.op))

/-- The instruction that a line is, if the catalog has it. -/
def classify (c : Catalog) (source : Text) : Except Fault (Option Match) :=
  let line := source.trim
  match Mnemonic.ofName? line.headAndRest.1 with
  | none => .ok none
  | some m =>
    match c.candidates m with
    | [] => .ok none
    | ps =>
      match readOperands (tokens line.headAndRest.2) with
      | .error text => .error (.invalidLiteral text)
      | .ok none => .ok none
      | .ok (some operands) => decideMatch line operands (ps.filter fun p => p.accepts operands)

/-! ## The catalog of the machine -/

/-- The instruction shapes of the machine, one per opcode. -/
def standardPatterns : List Pattern :=
  [⟨.mov1, .mov, [.register .r1, .value]⟩,
   ⟨.mov0, .mov, [.register .r0, .value]⟩,
   ⟨.mov3, .mov, [.register .r3, .value]⟩,
   ⟨.ldr0, .ldrb, [.register .r0, .indirect .r1]⟩,
   ⟨.ldr3, .ldrb, [.register .r3, .indirect .r1]⟩,
   ⟨.str0, .strb, [.register .r0, .indirect .r1]⟩,
   ⟨.cmp, .cmp, [.register .r0, .register .r3]⟩,
   ⟨.beq, .beq, [.label]⟩,
   ⟨.addp, .add, [.register .r1, .register .r1, .register .r0]⟩,
   ⟨.bcc, .bcc, [.label]⟩,
   ⟨.b, .b, [.label]⟩,
   ⟨.ldr3i, .ldrb, [.register .r3, .indirect .r3]⟩,
   ⟨.addi, .add, [.register .r0, .register .r0, .value]⟩,
   ⟨.sub, .sub, [.register .r0, .register .r0, .register .r3]⟩,
   ⟨.and, .and, [.register .r0, .register .r0, .register .r3]⟩,
   ⟨.lsr, .lsr, [.register .r0, .register .r0, .register .r3]⟩,
   ⟨.add, .add, [.register .r0, .register .r0, .register .r3]⟩,
   ⟨.dbl, .add, [.register .r0, .register .r0, .register .r0]⟩,
   ⟨.mov30, .mov, [.register .r3, .register .r0]⟩,
   ⟨.mul, .mul, [.register .r0, .register .r0, .register .r3]⟩,
   ⟨.bne, .bne, [.label]⟩,
   ⟨.str3, .strb, [.register .r3, .indirect .r1]⟩,
   ⟨.wait, .wait, [.value]⟩]

/-- No two shapes of the machine are alike. -/
theorem firstOverlap_standardPatterns : firstOverlap standardPatterns = none := by decide

/-- The catalog that source lines are read with. -/
def standard : Catalog := ⟨standardPatterns, firstOverlap_standardPatterns⟩

/-- Every opcode has exactly one shape. -/
theorem ops_standard : standard.patterns.map Pattern.op = Opcode.all := by decide

end Catalog

/-! ## Running the program -/

example : (Catalog.standard.find? .ldr0).map Pattern.text = some "LDRB R0, [R1]".toList := by decide
example : Catalog.standard.classify "  CMP  R0,R3 ".toList = .ok (some ⟨.cmp, none⟩) := rfl
example : Catalog.standard.classify "B halt".toList =
    .ok (some ⟨.b, some (.symbol "halt".toList)⟩) := rfl
example : Catalog.standard.classify "B R0".toList = .ok none := rfl
example : Catalog.standard.classify "MOV R1,".toList = .ok none := rfl
example : Catalog.standard.classify "MOV R1, #99999".toList =
    .error (.invalidLiteral "99999".toList) := rfl

end Minicore
