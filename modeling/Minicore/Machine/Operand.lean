/-
  OPERANDS — the tokens behind a mnemonic, and the slots of a pattern that take them.

  Problem: an operand is a register, a register in brackets, a `#value` or a bare name.  The four are
  told apart by their spelling alone — that is what makes the catalog unambiguous.

  1. **Program** — `Operand.read` tries the four spellings in that order.  A text is one of: an
     operand, NO operand (`none`), or a `#` with a number that does not fit a word, which is an error
     and not a "no": the writer clearly meant a number.

  2. **Specification** — `Slot.accepts` pairs each slot with the operands it takes: a register slot
     the very register, a bracket slot the very register in brackets, a value slot any `#value`, a
     label slot any bare name.
-/
import Minicore.Machine.Literal
import Minicore.Machine.Symbol

namespace Minicore

/-! ## Parameters -/

/-- The parameter of an instruction: a number, or the name of a place. -/
inductive Param where
  | literal (value : UInt16)
  | symbol (name : Text)
  deriving Repr, DecidableEq

/-- The written form: numbers in upper-case hexadecimal, names as they are. -/
def Param.text : Param → Text
  | .literal v => Numeral.hexLiteral v.toNat
  | .symbol s => s

/-! ## Slots -/

/-- What a pattern asks for at one position. -/
inductive Slot where
  /-- This register. -/
  | register (r : Register)
  /-- The cell that this register addresses, `[R1]`. -/
  | indirect (r : Register)
  /-- A number or the address of a name, `#0x1F` or `#temp_3`. -/
  | value
  /-- The name of a branch target, `loop_2`. -/
  | label
  deriving Repr, DecidableEq

/-- The written form. -/
def Slot.text : Slot → Text
  | .register r => r.name
  | .indirect r => '[' :: r.name ++ [']']
  | .value => "#value".toList
  | .label => "label".toList

/-! ## Operands -/

/-- One operand as it stands in a source line. -/
inductive Operand where
  | register (r : Register)
  | indirect (r : Register)
  | value (p : Param)
  | bare (name : Text)
  deriving Repr, DecidableEq

namespace Operand

/-- The text between a leading `[` and a trailing `]`. -/
def bracketed? : Text → Option Text
  | '[' :: rest => if rest.getLast? = some ']' then some rest.dropLast else none
  | _ => none

/-- What a `#` introduces: a number if it starts with a digit, otherwise a symbol. -/
def readValue (t : Text) : Except Text (Option Operand) :=
  match t with
  | [] => .ok none
  | c :: _ =>
    if c.isDigit then
      match Literal.read t with
      | .ok v => .ok (some (.value (.literal v)))
      | .error _ => .error t
    else .ok (if t.isSymbol then some (.value (.symbol t)) else none)

/-- The operand that a trimmed token is, if it is one.  The error is the text of a number that is no
    16-bit literal. -/
def read (t : Text) : Except Text (Option Operand) :=
  match Register.ofName? t with
  | some r => .ok (some (.register r))
  | none =>
    match bracketed? t with
    | some inner => .ok ((Register.ofName? inner.trim).map .indirect)
    | none =>
      match t with
      | '#' :: v => readValue v
      | _ => .ok (if t.isSymbol then some (.bare t) else none)

/-- The parameter that an operand carries. -/
def param? : Operand → Option Param
  | .value p => some p
  | .bare s => some (.symbol s)
  | _ => none

end Operand

/-- The operands that fit a slot. -/
def Slot.accepts : Slot → Operand → Bool
  | .register r, .register s => r == s
  | .indirect r, .indirect s => r == s
  | .value, .value _ => true
  | .label, .bare _ => true
  | _, _ => false

/-! ## Running the program -/

example : Operand.read "[ R1 ]".toList = .ok (some (.indirect .r1)) := rfl
example : Operand.read "#temp_3".toList = .ok (some (.value (.symbol "temp_3".toList))) := rfl
example : Operand.read "#0x10000".toList = .error "0x10000".toList := rfl
example : Operand.read "#-1".toList = .ok none := rfl
example : Operand.read "[".toList = .ok none := rfl
example : Operand.read "[R2]".toList = .ok none := rfl

end Minicore
