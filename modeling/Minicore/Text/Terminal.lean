/-
  TERMINAL TEXT — colours and weights.

  A coloured stretch opens with the escape sequence of its colour and closes with the one that
  restores the default; the same for bold and underlined text.  Sequences are written ALWAYS, also
  when the output is no terminal.
-/
import Minicore.Text.Numeral

namespace Minicore

namespace Terminal

/-- The colours in use. -/
inductive Colour where
  | red
  | green
  | yellow
  | blue
  | cyan
  deriving Repr, DecidableEq

/-- The number that selects a colour. -/
def Colour.number : Colour → Nat
  | .red => 31
  | .green => 32
  | .yellow => 33
  | .blue => 34
  | .cyan => 36

/-- The escape sequence of that number. -/
def sequence (n : Nat) : Text := "\x1b[".toList ++ Numeral.decimal n ++ ['m']

/-- The text in that colour. -/
def colour (c : Colour) (t : Text) : Text := sequence c.number ++ t ++ sequence 39

/-- The text underlined. -/
def underline (t : Text) : Text := sequence 4 ++ t ++ sequence 24

/-- The text in that colour and bold; the colour opens first and closes first. -/
def bold (c : Colour) (t : Text) : Text :=
  sequence c.number ++ sequence 1 ++ t ++ sequence 39 ++ sequence 22

end Terminal

end Minicore
