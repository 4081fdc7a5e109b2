/-
  RULES — the code of every node.

  Problem: turn a tree into code for a machine with one address register.

  1. **Program** — an expression is evaluated into a memory cell, and the cell is its result: a variable
     is its own cell, a number and the value of an operator get a new temporary.  Registers hold values
     only within the few instructions of one node: `R1` the address, `R0` and `R3` the operands.  A
     statement leaves no result.

  2. **Order** — what is read first is generated first, checked first and numbered first: the value
     before the name it is assigned to, the index before the value, the condition before the two
     branches.  The number of a conditional is taken AFTER its condition, that of a loop before it.

  3. **Conditions** — a condition holds when its value is ONE.  A conditional without an alternative (an
     empty block counts as none) skips the consequence all the same.

  4. **The screen** — the table `screen` is not declared: it is the display memory at a fixed address.
-/
import Minicore.Codegen.Generation

namespace Minicore

/-! ## Instruction sequences -/

namespace Code

/-- An instruction without a parameter. -/
def plain (op : Opcode) : Statement := .code op none

/-- The address register gets the address of that name. -/
def address (name : Text) : Statement := .code .mov1 (some (.symbol name))

/-- A branch. -/
def branch (op : Opcode) (l : Label) : Statement := .code op (some (.symbol l.name))

/-- A branch target. -/
def mark (l : Label) : Statement := .label l.name

/-- Register `R0` gets the value of the cell. -/
def load0 (c : Cell) : List Statement := [address c.name, plain .ldr0]

/-- Register `R3` gets the value of the cell. -/
def load3 (c : Cell) : List Statement := [address c.name, plain .ldr3]

/-- The cell gets the value of `R0`. -/
def store (c : Cell) : List Statement := [address c.name, plain .str0]

/-- The second cell gets the value of the first. -/
def copy (source target : Cell) : List Statement := load0 source ++ store target

/-- Compares the cell with one. -/
def test (c : Cell) : List Statement :=
  load0 c ++ [.code .mov3 (some (.literal 1)), plain .cmp]

/-- Register `R0` gets one if the branch is taken on `R0` and `R3`, else zero. -/
def compare (op : Opcode) (n : Nat) : List Statement :=
  [plain .cmp, branch op ⟨.holds, n⟩] ++ load0 .zero ++
    [branch .b ⟨.join, n⟩, mark ⟨.holds, n⟩] ++ load0 .one ++ [mark ⟨.join, n⟩]

end Code

/-! ## Tables -/

/-- The table that is the display memory. -/
def screenName : Text := "screen".toList

/-- The address of the display memory. -/
def screenBase : UInt16 := 0x200

/-- Where a table begins. -/
def tableBase (name : Text) : Param :=
  if name = screenName then .literal screenBase else .symbol (tableName name)

/-! ## Operators -/

/-- Register `R0` gets the value of the operator on `R0` and `R3`. -/
def operate : Operator → Gen Unit
  | .add => Gen.body [Code.plain .add]
  | .sub => Gen.body [Code.plain .sub]
  | .mul => Gen.body [Code.plain .mul]
  | .eq => do
    let n ← Gen.label
    Gen.body (Code.compare .beq n)
  | .lt => do
    let n ← Gen.label
    Gen.body (Code.compare .bcc n)

/-! ## Expressions -/

/-- The cell that holds the value of an expression. -/
def expression : Node → Gen Cell
  | .ident name => do
    let x ← Gen.identifier name
    return .var x
  | .intLit value => do
    let v ← Gen.literal value
    Gen.temp v
  | .binary op left right => do
    let l ← expression left
    let r ← expression right
    Gen.body (Code.load0 l ++ Code.load3 r)
    operate op
    let cell ← Gen.temp 0
    Gen.body (Code.store cell)
    return cell
  | other => Gen.unexpected .expression other

/-! ## Statements -/

/-- The name of an assignment's target. -/
def targetName : Node → Gen Text
  | .ident name => return name
  | other => Gen.unexpected .identifier other

/-- The cell of a variable that is assigned to; it is declared with it. -/
def declaredVariable (name : Text) : Gen Cell := do
  let x ← Gen.identifier name
  Gen.declare (.variable x)
  return .var x

/-- A variable gets the value of an expression. -/
def assignment (name : Text) (value : Node) : Gen Unit := do
  let source ← expression value
  let target ← declaredVariable name
  Gen.body (Code.copy source target)

/-- There is an alternative, and it is no empty block. -/
def hasAlternative : Option Node → Bool
  | none => false
  | some (.block []) => false
  | some _ => true

mutual

/-- The code of a statement. -/
def statement : Node → Gen Unit
  | .block ss => statements ss
  | .scalarInit name value => assignment name value
  | .scalarAssign target value => do
    let name ← targetName target
    assignment name value
  | .tableInit name size default => do
    let x ← Gen.identifier name
    let n ← Gen.literal size
    let v ← Gen.literal default
    Gen.declare (.table x n v)
  | .tableAssign target index value => do
    let name ← targetName target
    let i ← expression index
    let v ← expression value
    Gen.body (Code.load3 v ++ Code.load0 i ++
      [.code .mov1 (some (tableBase name)), Code.plain .addp, Code.plain .str3])
  | .wait duration => do
    let d ← Gen.literal duration
    Gen.body [.code .wait (some (.literal d))]
  | .ifElse condition consequence alternative => do
    let c ← expression condition
    let n ← Gen.label
    Gen.body (Code.test c ++
      [Code.branch .bne ⟨if hasAlternative alternative then .alternative else .endIf, n⟩])
    innerBlock consequence
    Gen.body [Code.branch .b ⟨.endIf, n⟩]
    alternativePart n alternative
    Gen.body [Code.mark ⟨.endIf, n⟩]
  | .whileLoop condition body => do
    let n ← Gen.label
    Gen.body [Code.mark ⟨.loop, n⟩]
    let c ← expression condition
    Gen.body (Code.test c ++ [Code.branch .bne ⟨.endLoop, n⟩])
    innerBlock body
    Gen.body [Code.branch .b ⟨.loop, n⟩, Code.mark ⟨.endLoop, n⟩]
  | .exprStmt expr => do
    let _ ← expression expr
    return ()
  | other => Gen.unexpected .statement other

/-- The code of a branch or a loop body, which has to be a block. -/
def innerBlock : Node → Gen Unit
  | .block ss => statements ss
  | other => Gen.unexpected .block other

/-- The code of an alternative behind its branch target; an empty block has none. -/
def alternativePart (n : Nat) : Option Node → Gen Unit
  | none => return ()
  | some (.block []) => return ()
  | some alternative => do
    Gen.body [Code.mark ⟨.alternative, n⟩]
    innerBlock alternative

/-- The code of statements, one behind another. -/
def statements : List Node → Gen Unit
  | [] => return ()
  | s :: rest => do
    statement s
    statements rest

end

/-! ## Programs -/

/-- The code of a program. -/
def program : Node → Gen Unit
  | .program ss => statements ss
  | other => Gen.unexpected .program other

/-- Everything that a program generates from a fresh start. -/
def Streams.ofProgram (n : Node) : Except TreeFault Streams :=
  let r := Generator.new.run (program n)
  r.1.map fun _ => r.2.streams

end Minicore
