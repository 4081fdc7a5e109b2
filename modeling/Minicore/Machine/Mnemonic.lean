/-
  MNEMONICS — the first word of an instruction.

  Several instruction shapes share one mnemonic (`MOV R1, #value` and `MOV R3, R0`), so a mnemonic
  alone does not fix an opcode; the operands do (see the catalog).  Mnemonics are upper case and
  exact: `mov` is an ordinary word.
-/
import Minicore.Text.Blank

namespace Minicore

/-- The mnemonics of the machine. -/
inductive Mnemonic where
  | mov
  | ldrb
  | strb
  | add
  | sub
  | mul
  | and
  | lsr
  | cmp
  | b
  | beq
  | bcc
  | bne
  | wait
  deriving Repr, DecidableEq

namespace Mnemonic

/-- Every mnemonic. -/
def all : List Mnemonic :=
  [.mov, .ldrb, .strb, .add, .sub, .mul, .and, .lsr, .cmp, .b, .beq, .bcc, .bne, .wait]

/-- The written form. -/
def name : Mnemonic → Text
  | .mov => "MOV".toList
  | .ldrb => "LDRB".toList
  | .strb => "STRB".toList
  | .add => "ADD".toList
  | .sub => "SUB".toList
  | .mul => "MUL".toList
  | .and => "AND".toList
  | .lsr => "LSR".toList
  | .cmp => "CMP".toList
  | .b => "B".toList
  | .beq => "BEQ".toList
  | .bcc => "BCC".toList
  | .bne => "BNE".toList
  | .wait => "WAIT".toList

/-- The mnemonic of that exact name. -/
def ofName? (t : Text) : Option Mnemonic := all.find? fun m => m.name == t

/-- Reading is the inverse of writing: a text is the mnemonic `m` exactly when it is `m`'s name. -/
theorem ofName?_eq_some_iff {t : Text} {m : Mnemonic} : ofName? t = some m ↔ t = m.name := by
  constructor
  · intro h
    have := List.find?_some h
    exact (beq_iff_eq.1 this).symm
  · rintro rfl
    cases m <;> decide

end Mnemonic

example : Mnemonic.ofName? "ldrb".toList = none := by decide

end Minicore
