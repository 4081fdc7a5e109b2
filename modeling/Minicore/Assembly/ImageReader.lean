/-
  The IMAGE READER — the records that a memory initialisation file holds.

  Problem: an image is written for a device that reads it from the text alone.  What the device has to
  know is the layout of a line, and nothing of the assembly that it came from.

  1. **Program** — `Image.records?` checks the lines before and behind the records and reads each line
     between them; `Record.ofText?` cuts a line at fixed places: two digits of address, six of word,
     and a comment that ends at the next `%`.

  2. **Words** — the first two digits are an opcode byte, and zero is no opcode: it marks data
     (`Word.ofText?`).

  3. **Strictness** — digits are upper case, their number is fixed, and nothing may stand behind the
     comment; any other line is no record.
-/
import Minicore.Assembly.Image

namespace Minicore

namespace Numeral

/-- A digit as it stands in an image. -/
def isHexDigit (c : Char) : Bool := c.isDigit || ('A' ≤ c && c ≤ 'F')

/-- The word that a row of upper-case hexadecimal digits stands for. -/
def readDigits (t : Text) : Option UInt16 :=
  if t.all isHexDigit then (readWord 16 t).toOption else none

end Numeral

/-- The word of six digits: an opcode byte with its operand, or a zero byte with a value. -/
def Word.ofText? (t : Text) : Option Word :=
  match Numeral.readDigits (t.take 2), Numeral.readDigits (t.drop 2) with
  | some byte, some value =>
    if byte = 0 then some (.data value)
    else (Opcode.ofCode? byte.toNat).map fun op => .instruction op value
  | _, _ => none

namespace Record

/-- The comment that stands before a closing `%`, and nothing else behind it. -/
def commentOf? (t : Text) : Option Text :=
  let body := t.takeWhile (· != '%')
  if t.dropWhile (· != '%') = ['%'] ∧ body.getLast? = some ' ' then some body.dropLast else none

/-- The record of an image line. -/
def ofText? (line : Text) : Option Record :=
  match Numeral.readDigits (line.take 2), Word.ofText? ((line.drop 5).take 6),
      commentOf? (line.drop 15) with
  | some address, some word, some comment =>
    if (line.drop 2).take 3 = " : ".toList ∧ (line.drop 11).take 4 = ";\t% ".toList then
      some ⟨address, word, comment⟩
    else none
  | _, _, _ => none

end Record

/-- The records of an image, in order. -/
def Image.records? (t : Text) : Option (List Record) :=
  let ls := t.lines
  if ls.take header.length = header ∧ ls.getLast? = some "END;".toList then
    (ls.drop header.length).dropLast.mapM Record.ofText?
  else none

/-! ## Running the program -/

example : Record.ofText? "0A : 01001F;\t% MOV R1, #temp_1 %".toList =
    some ⟨0x0A, .instruction .mov1 0x1F, "MOV R1, #temp_1".toList⟩ := by decide
example : Record.ofText? "1F : 000003;\t% temp_1 DCB 0x3 %".toList =
    some ⟨0x1F, .data 3, "temp_1 DCB 0x3".toList⟩ := by decide
example : Record.ofText? "1F : 180003;\t% x %".toList = none := by decide
example : Record.ofText? "1f : 000003;\t% x %".toList = none := by decide
example : Record.ofText? "1F : 000003;\t% 5 % 3 %".toList = none := by decide

end Minicore
