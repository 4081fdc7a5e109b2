/-
  The ADDRESS MAP — where the names of a program stand.

  Every label and every data declaration defines a name.  A later definition of the same name replaces
  the earlier one but keeps its place in the order; a reference is resolved with the map of the WHOLE
  program, so it makes no difference whether the definition stands before or after it.
-/
import Minicore.OrderedMap
import Minicore.Assembly.Fault

namespace Minicore

/-- What a name stands for. -/
inductive Definition where
  /-- The address of the next word. -/
  | label
  /-- The first of this many cells. -/
  | data (cells : Nat)
  deriving Repr, DecidableEq

/-- Where a name is defined: the index of the line, what kind of line it is, and the address. -/
structure Entry where
  line : Nat
  kind : Definition
  address : UInt16
  deriving Repr, DecidableEq

/-- Names with their definitions, by first definition. -/
abbrev AddressMap := OrderedMap Entry

namespace AddressMap

/-- The address of a name. -/
def address? (m : AddressMap) (name : Text) : Option UInt16 :=
  (OrderedMap.find? m name).map Entry.address

/-- The value of a parameter: a number is itself, a name is its address. -/
def resolve (m : AddressMap) : Param → Except Cause UInt16
  | .literal v => .ok v
  | .symbol name =>
    match m.address? name with
    | some a => .ok a
    | none => .error (.unresolvedSymbol name)

end AddressMap

end Minicore
