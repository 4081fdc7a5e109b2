/-
  LITERALS — numbers in assembly source.

  The radix is told by the characters in front: `0b`, `0o`, `0x` or `0X`; without them the number is
  decimal (there is NO upper-case form of the first two, so `0B1` is a decimal text with a bad digit).
  What follows is a 16-bit numeral in that radix, so a sign is possible after the radix mark too.
-/
import Minicore.Text.Numeral

namespace Minicore

namespace Literal

/-- The radix of a literal and the numeral that follows its radix mark. -/
def radixAndRest : Text → Nat × Text
  | '0' :: 'b' :: rest => (2, rest)
  | '0' :: 'o' :: rest => (8, rest)
  | '0' :: 'x' :: rest => (16, rest)
  | '0' :: 'X' :: rest => (16, rest)
  | t => (10, t)

/-- The 16-bit value of a literal, or its first fault. -/
def read (t : Text) : Except Numeral.Fault UInt16 :=
  Numeral.readWord (radixAndRest t).1 (radixAndRest t).2

end Literal

example : Literal.read "0x1F".toList = .ok 31 := rfl
example : Literal.read "0b101".toList = .ok 5 := rfl
example : Literal.read "0B1".toList = .error .invalidDigit := rfl
example : Literal.read "0x".toList = .error .empty := rfl

end Minicore
