/-
  RECORDS — the words of an image, one by one.

  An image has 256 words of 24 bits.  A word is an instruction (opcode byte, then a 16-bit operand) or
  data (a zero byte, then 16 bits); since no opcode is zero the two never look alike.  A record is a
  word at an address, with the source line it came from as its comment.
-/
import Minicore.Machine.Opcode
import Minicore.Text.Numeral

namespace Minicore

/-- The number of words in an image. -/
def imageDepth : Nat := 256

/-- The number of bits in a word. -/
def imageWidth : Nat := 24

/-- One word of the image. -/
inductive Word where
  | instruction (op : Opcode) (operand : UInt16)
  | data (value : UInt16)
  deriving Repr, DecidableEq

/-- Six hexadecimal digits. -/
def Word.text : Word → Text
  | .instruction op operand => Numeral.hexPadded 2 op.code ++ Numeral.hexPadded 4 operand.toNat
  | .data value => Numeral.hexPadded 6 value.toNat

/-- A word at its address. -/
structure Record where
  address : UInt16
  word : Word
  comment : Text
  deriving Repr, DecidableEq

/-- Address, word and comment as a line of the image. -/
def Record.text (r : Record) : Text :=
  Numeral.hexPadded 2 r.address.toNat ++ " : ".toList ++ r.word.text ++ ";\t% ".toList ++
    r.comment ++ " %".toList

example : Record.text ⟨0x0A, .instruction .mov1 0x1F, "MOV R1, #temp_1".toList⟩ =
    "0A : 01001F;\t% MOV R1, #temp_1 %".toList := by decide
example : Record.text ⟨0x1F, .data 3, "temp_1 DCB 0x3".toList⟩ =
    "1F : 000003;\t% temp_1 DCB 0x3 %".toList := by decide

end Minicore
