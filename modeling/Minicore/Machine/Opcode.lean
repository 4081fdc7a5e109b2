/-
  OPCODES — the instruction byte of an image word.

  One opcode per instruction SHAPE.  An opcode is named after its mnemonic plus whatever tells it
  from the other shapes of that mnemonic: the register it loads (`mov1`, `ldr3`), or its form
  (`ldr3i` loads through the register it overwrites, `addp` advances the address, `dbl` doubles).

  1. **Program** — `code` gives the byte, `ofCode?` finds the opcode of a byte.

  2. **Specification** — the two are inverse on the 23 codes `1 … 23` (`ofCode?_eq_some_iff`), and
     zero is the code of NO instruction (`ofCode?_zero`): that is what lets a reader of an image tell
     an instruction word from a data word.
-/
import Minicore.Text.Blank

namespace Minicore

/-- The instruction shapes that the machine decodes. -/
inductive Opcode where
  | mov1
  | mov0
  | mov3
  | ldr0
  | ldr3
  | str0
  | cmp
  | beq
  | addp
  | bcc
  | b
  | ldr3i
  | addi
  | sub
  | and
  | lsr
  | add
  | dbl
  | mov30
  | mul
  | bne
  | str3
  | wait
  deriving Repr, DecidableEq

namespace Opcode

/-- Every opcode, by rising code. -/
def all : List Opcode :=
  [.mov1, .mov0, .mov3, .ldr0, .ldr3, .str0, .cmp, .beq, .addp, .bcc, .b, .ldr3i, .addi, .sub, .and,
   .lsr, .add, .dbl, .mov30, .mul, .bne, .str3, .wait]

/-- The byte of the opcode. -/
def code : Opcode → Nat
  | .mov1 => 0x01
  | .mov0 => 0x02
  | .mov3 => 0x03
  | .ldr0 => 0x04
  | .ldr3 => 0x05
  | .str0 => 0x06
  | .cmp => 0x07
  | .beq => 0x08
  | .addp => 0x09
  | .bcc => 0x0A
  | .b => 0x0B
  | .ldr3i => 0x0C
  | .addi => 0x0D
  | .sub => 0x0E
  | .and => 0x0F
  | .lsr => 0x10
  | .add => 0x11
  | .dbl => 0x12
  | .mov30 => 0x13
  | .mul => 0x14
  | .bne => 0x15
  | .str3 => 0x16
  | .wait => 0x17

/-- The name shown in messages. -/
def name : Opcode → Text
  | .mov1 => "MOV1".toList
  | .mov0 => "MOV0".toList
  | .mov3 => "MOV3".toList
  | .ldr0 => "LDR0".toList
  | .ldr3 => "LDR3".toList
  | .str0 => "STR0".toList
  | .cmp => "CMP".toList
  | .beq => "BEQ".toList
  | .addp => "ADDP".toList
  | .bcc => "BCC".toList
  | .b => "B".toList
  | .ldr3i => "LDR3I".toList
  | .addi => "ADDI".toList
  | .sub => "SUB".toList
  | .and => "AND".toList
  | .lsr => "LSR".toList
  | .add => "ADD".toList
  | .dbl => "DBL".toList
  | .mov30 => "MOV30".toList
  | .mul => "MUL".toList
  | .bne => "BNE".toList
  | .str3 => "STR3".toList
  | .wait => "WAIT".toList

/-- The opcode of that byte. -/
def ofCode? (n : Nat) : Option Opcode := all.find? fun op => op.code == n

/-- Decoding is the inverse of encoding: a byte decodes to `op` exactly when it is `op`'s code. -/
theorem ofCode?_eq_some_iff {n : Nat} {op : Opcode} : ofCode? n = some op ↔ n = op.code := by
  constructor
  · intro h
    have := List.find?_some h
    exact (beq_iff_eq.1 this).symm
  · rintro rfl
    cases op <;> decide

/-- Zero is no instruction. -/
theorem ofCode?_zero : ofCode? 0 = none := by decide

/-- A code is one byte, and not zero. -/
theorem code_bounds (op : Opcode) : 0 < op.code ∧ op.code < 24 := by
  cases op <;> decide

end Opcode

example : Opcode.ofCode? 0x18 = none := by decide
example : Opcode.all.map Opcode.code = List.range' 1 23 := by decide

end Minicore
