/-
  The FOOTPRINT of a tree — what a program will take and need, read off its nodes.

  Problem: an image has room for so many words, and a name has to be declared somewhere.  Whether a
  program fits and whether all its names are there does not depend on how its code is written: it can
  be counted and looked up in the tree, before anything is generated.

  1. **Words** — `Node.footprint` is the number of words: the instructions of the nodes
     (`Node.cost`), the halt loop and the two constants, a temporary for every number and every
     operator, the cells of the tables as their LAST declarations have them, and one cell for each
     variable.

  2. **Names** — `Node.reads` are the variables whose value is used: an expression that is a statement
     of its own is evaluated for nothing, so a variable that is the whole of it is not read.  A read
     or an assignment to a table that no node declares leaves the tree open (`Node.Open`).
-/
import Minicore.Codegen.Rules
import Minicore.Tree.Parts
import Mathlib.Algebra.GroupWithZero.Nat

namespace Minicore

/-! ## Words -/

/-- The instructions of an operator on two cells: two loads, the operation and a store. -/
def Operator.cost : Operator → Nat
  | .add | .sub | .mul => 7
  | .eq | .lt => 13

namespace Node

mutual

/-- The number of instructions. -/
def cost : Node → Nat
  | .program ss => costOf ss
  | .block ss => costOf ss
  | .scalarInit _ value => value.cost + 4
  | .scalarAssign _ value => value.cost + 4
  | .tableInit _ _ _ => 0
  | .tableAssign _ index value => index.cost + value.cost + 7
  | .wait _ => 1
  | .ifElse condition consequence none => condition.cost + 6 + consequence.cost
  | .ifElse condition consequence (some alternative) =>
    condition.cost + 6 + consequence.cost + alternative.cost
  | .whileLoop condition body => condition.cost + 6 + body.cost
  | .exprStmt expr => expr.cost
  | .ident _ => 0
  | .intLit _ => 0
  | .binary op left right => left.cost + right.cost + op.cost

/-- The number of instructions of these nodes. -/
def costOf : List Node → Nat
  | [] => 0
  | n :: rest => n.cost + costOf rest

end

/-- The node keeps its value in a new temporary. -/
def takesTemporary : Node → Bool
  | .intLit _ => true
  | .binary _ _ _ => true
  | _ => false

/-- The number of temporaries. -/
def temporaries (n : Node) : Nat := n.subnodes.countP takesTemporary

/-- The number of cells in all tables. -/
def tableCells (n : Node) : Nat := (n.tables.entries.map fun d => d.2.1.toNat).sum

/-- The variables that the tree assigns to, each once. -/
def scalars (n : Node) : List Text := n.assigned.eraseDups

/-- The number of words that the program takes. -/
def footprint (n : Node) : Nat :=
  n.cost + 3 + n.temporaries + n.tableCells + n.scalars.length

/-! ## Names -/

/-- The expressions whose value the node itself uses. -/
def operands : Node → List Node
  | .scalarInit _ value => [value]
  | .scalarAssign _ value => [value]
  | .tableAssign _ index value => [index, value]
  | .ifElse condition _ _ => [condition]
  | .whileLoop condition _ => [condition]
  | .binary _ left right => [left, right]
  | _ => []

/-- The variable that an expression is. -/
def ident? : Node → Option Text
  | .ident name => some name
  | _ => none

/-- The variables whose value is used. -/
def reads (n : Node) : List Text := n.subnodes.flatMap fun m => m.operands.filterMap ident?

/-- The tree uses a variable that it never assigns to, or assigns to a table that it does not declare
    and that is not the display. -/
def Open (n : Node) : Prop :=
  (∃ x ∈ n.reads, x ∉ n.assigned) ∨ ∃ x ∈ n.tableTargets, x ≠ screenName ∧ x ∉ n.tables.keys

instance (n : Node) : Decidable n.Open := inferInstanceAs (Decidable (_ ∨ _))

end Node

example : Node.footprint (.program [.assign ['x'] (.binary .lt (.ident ['x']) (.intLit ['2']))]) =
    (13 + 4) + 3 + 2 + 0 + 1 := by decide
example : Node.Open (.program [.exprStmt (.ident ['x'])]) ↔ False := by decide

end Minicore
