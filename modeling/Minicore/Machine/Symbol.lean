/-
  SYMBOLS — the names a program may give to its places.

  An IDENTIFIER starts with an ASCII letter or an underscore and goes on with letters, digits and
  underscores.  A SYMBOL is an identifier that the machine has not taken: no register, no mnemonic,
  not the word that introduces data.
-/
import Minicore.Machine.Register
import Minicore.Machine.Mnemonic

namespace Minicore

/-- The word between a name and the values declared under it. -/
def dataKeyword : Text := "DCB".toList

namespace Text

/-- A character that may start an identifier. -/
def startsIdentifier (c : Char) : Bool := c.isAlpha || c == '_'

/-- A character that may continue an identifier. -/
def continuesIdentifier (c : Char) : Bool := c.isAlphanum || c == '_'

/-- The shape of a name: a letter or underscore, then letters, digits and underscores. -/
def isIdentifier : Text → Bool
  | [] => false
  | c :: rest => startsIdentifier c && rest.all continuesIdentifier

/-- A word with a meaning of its own. -/
def isReserved (t : Text) : Bool :=
  t == dataKeyword || (Register.ofName? t).isSome || (Mnemonic.ofName? t).isSome

/-- A name that a program may define and refer to. -/
def isSymbol (t : Text) : Bool := t.isIdentifier && !t.isReserved

end Text

example : Text.isSymbol "_tmp".toList = true := by decide
example : Text.isSymbol "BNE".toList = false := by decide
example : Text.isSymbol "1abc".toList = false := by decide

end Minicore
