/-
  NUMERALS — how numbers are written, and how a 16-bit word is read back.

  Problem: literals come in four radices, and a reader has to say WHICH fault a bad one has, since
  that text is part of the answer: nothing there, a character that is no digit, or a value beyond
  16 bits.

  1. **Program** — `hex`, `decimal` and the padded forms write; `readWord radix` reads from left to
     right, keeping the value so far, and stops at the FIRST fault: a character that is no digit of
     the radix is a fault at once, a digit is a fault when it takes the value past `maxWord`.

  2. **Specification** — the accumulated value is the positional one (`accumulate` is Horner's rule),
     an optional single `+` may lead, and a lone sign is no number.
-/
import Minicore.Text.Blank

namespace Minicore

/-- The largest value of a 16-bit word. -/
def maxWord : Nat := 0xFFFF

/-- A number of 16 bits is the value of the word made of it. -/
theorem toNat_ofNat_of_le {n : Nat} (h : n ≤ maxWord) : (UInt16.ofNat n).toNat = n :=
  UInt16.toNat_ofNat_of_lt' (Nat.lt_succ_of_le h)

namespace Numeral

/-! ## Writing -/

/-- Upper-case hexadecimal digits, without leading zeros. -/
def hex (n : Nat) : Text := (Nat.toDigits 16 n).map Char.toUpper

/-- Decimal digits, without leading zeros. -/
def decimal (n : Nat) : Text := Nat.toDigits 10 n

/-- The text filled up on the left with `c` to at least `width` characters. -/
def padLeft (c : Char) (width : Nat) (t : Text) : Text :=
  List.replicate (width - t.length) c ++ t

/-- At least `width` upper-case hexadecimal digits, filled up with zeros. -/
def hexPadded (width n : Nat) : Text := padLeft '0' width (hex n)

/-- A hexadecimal literal as the assembler reads it. -/
def hexLiteral (n : Nat) : Text := "0x".toList ++ hex n

/-! ## Reading -/

/-- Why a text is no 16-bit number. -/
inductive Fault where
  /-- There is nothing to read. -/
  | empty
  /-- A character is no digit of the radix. -/
  | invalidDigit
  /-- The value does not fit 16 bits. -/
  | overflow
  deriving Repr, DecidableEq

/-- The wording of a fault. -/
def Fault.message : Fault → Text
  | .empty => "cannot parse integer from empty string".toList
  | .invalidDigit => "invalid digit found in string".toList
  | .overflow => "number too large to fit in target type".toList

/-- The value of an ASCII digit or letter as a digit, in either case. -/
def digitValue (c : Char) : Option Nat :=
  if '0' ≤ c ∧ c ≤ '9' then some (c.toNat - '0'.toNat)
  else if 'a' ≤ c ∧ c ≤ 'z' then some (c.toNat - 'a'.toNat + 10)
  else if 'A' ≤ c ∧ c ≤ 'Z' then some (c.toNat - 'A'.toNat + 10)
  else none

/-- The value of `c` as a digit of `radix`. -/
def digit? (radix : Nat) (c : Char) : Option Nat :=
  (digitValue c).filter (· < radix)

/-- Horner's rule with the two faults: `value` is what the digits read so far amount to. -/
def accumulate (radix : Nat) (value : Nat) : Text → Except Fault Nat
  | [] => .ok value
  | c :: rest =>
    match digit? radix c with
    | none => .error .invalidDigit
    | some d =>
      if value * radix + d ≤ maxWord then accumulate radix (value * radix + d) rest
      else .error .overflow

/-- One leading `+` carries no value. -/
def dropPlus : Text → Text
  | '+' :: rest => rest
  | t => t

/-- The 16-bit number that `t` writes in `radix`: an optional `+` and at least one digit. -/
def readWord (radix : Nat) (t : Text) : Except Fault UInt16 :=
  match t with
  | [] => .error .empty
  | ['+'] | ['-'] => .error .invalidDigit
  | _ => (accumulate radix 0 (dropPlus t)).map UInt16.ofNat

/-- What is accumulated is a word. -/
theorem le_maxWord_of_accumulate {radix : Nat} {t : Text} {value n : Nat} (hv : value ≤ maxWord)
    (h : accumulate radix value t = .ok n) : n ≤ maxWord := by
  induction t generalizing value with
  | nil =>
    simp only [accumulate, Except.ok.injEq] at h
    omega
  | cons c t ih =>
    simp only [accumulate] at h
    split at h
    · cases h
    · split at h
      · exact ih ‹_› h
      · cases h

end Numeral

/-! ## Running the program -/

example : Numeral.hexPadded 4 0x1F = "001F".toList := by decide
example : Numeral.hexPadded 2 0xFFF = "FFF".toList := by decide
example : Numeral.decimal 0 = "0".toList := by decide
example : Numeral.readWord 10 "65535".toList = .ok 65535 := rfl
example : Numeral.readWord 10 "9999x".toList = .error .invalidDigit := rfl
example : Numeral.readWord 10 "99999x".toList = .error .overflow := rfl
example : Numeral.readWord 16 "+5".toList = .ok 5 := rfl
example : Numeral.readWord 10 "++5".toList = .error .invalidDigit := rfl

end Minicore
