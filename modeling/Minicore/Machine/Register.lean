/-
  The REGISTERS a program can name.

  The machine shows three registers to a program: `R1` holds addresses, `R0` and `R3` hold operands.
  A register is written by its exact name; every other text is no register.
-/
import Minicore.Text.Blank

namespace Minicore

/-- A register of the machine. -/
inductive Register where
  | r0
  | r1
  | r3
  deriving Repr, DecidableEq

namespace Register

/-- Every register, in the order of their numbers. -/
def all : List Register := [.r0, .r1, .r3]

/-- The written form. -/
def name : Register → Text
  | .r0 => "R0".toList
  | .r1 => "R1".toList
  | .r3 => "R3".toList

/-- The register of that exact name. -/
def ofName? (t : Text) : Option Register := all.find? fun r => r.name == t

/-- What is reported of a text that names no register. -/
def unknownMessage (t : Text) : Text := "Unknown reg name: ".toList ++ t

/-- Reading is the inverse of writing: a text names `r` exactly when it is `r`'s name. -/
theorem ofName?_eq_some_iff {t : Text} {r : Register} : ofName? t = some r ↔ t = r.name := by
  constructor
  · intro h
    have := List.find?_some h
    exact (beq_iff_eq.1 this).symm
  · rintro rfl
    cases r <;> decide

end Register

example : Register.ofName? "R2".toList = none := by decide
example : Register.ofName? "r0".toList = none := by decide

end Minicore
