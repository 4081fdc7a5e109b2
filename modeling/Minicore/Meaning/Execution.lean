/-
  EXECUTION — what a program means, told on the tree.

  Problem: the meaning of a program must not depend on how it is compiled.  It is told here without
  cells, registers or addresses, as what each node does to the values of variables and tables.

  1. **Expressions** — `Node.value?` is the value of an expression: arithmetic is modulo `2 ^ 16`, a
     comparison gives one or zero.  An expression changes nothing.

  2. **Statements** — `Executes n s es s'`: run in the store `s`, the statement `n` TERMINATES in the
     store `s'`, with the events `es` on the way.  A condition holds when its value is one.

  3. **The start** — every variable is zero, and a table holds the value of its LAST declaration
     wherever that stands: a declaration does nothing when it is reached.  `screen` is the display: it
     is not declared, and starts with what is shown.
-/
import Minicore.Codegen.Rules
import Minicore.Tree.Parts

namespace Minicore

/-! ## Values -/

/-- The value of an operator. -/
def Operator.apply : Operator → UInt16 → UInt16 → UInt16
  | .add, a, b => a + b
  | .sub, a, b => a - b
  | .mul, a, b => a * b
  | .eq, a, b => if a = b then 1 else 0
  | .lt, a, b => if a < b then 1 else 0

/-- The value of an expression, if it is one. -/
def Node.value? (vars : Text → UInt16) : Node → Option UInt16
  | .ident x => some (vars x)
  | .intLit t => word? t
  | .binary op left right =>
    match value? vars left, value? vars right with
    | some a, some b => some (op.apply a b)
    | _, _ => none
  | _ => none

/-! ## Stores and events -/

/-- The values of the variables and of the cells of the tables. -/
structure Store where
  vars : Text → UInt16
  tables : Text → UInt16 → UInt16

namespace Store

/-- The store with `v` in the variable `x`. -/
def setVar (s : Store) (x : Text) (v : UInt16) : Store :=
  { s with vars := fun y => if y = x then v else s.vars y }

/-- The store with `v` in the cell `i` of the table `x`. -/
def setCell (s : Store) (x : Text) (i v : UInt16) : Store :=
  { s with tables := fun y j => if y = x ∧ j = i then v else s.tables y j }

end Store

/-- What can be noticed of a run. -/
inductive Event where
  /-- A pause. -/
  | wait (duration : UInt16)
  /-- A cell of a table gets a value. -/
  | store (table : Text) (index value : UInt16)
  deriving Repr, DecidableEq

/-- The pauses, in order. -/
def Event.waits (es : List Event) : List UInt16 :=
  es.filterMap fun
    | .wait d => some d
    | .store _ _ _ => none

/-! ## Statements -/

/-- The statement, run in the first store, ends in the second with these events. -/
inductive Executes : Node → Store → List Event → Store → Prop
  | nil {s : Store} : Executes (.block []) s [] s
  | cons {n : Node} {ns : List Node} {s s₁ s₂ : Store} {es fs : List Event} :
      Executes n s es s₁ → Executes (.block ns) s₁ fs s₂ → Executes (.block (n :: ns)) s (es ++ fs) s₂
  | assign {n value : Node} {x : Text} {v : UInt16} {s : Store} :
      n.Assigns x value → value.value? s.vars = some v → Executes n s [] (s.setVar x v)
  | tableInit {x size default : Text} {s : Store} : Executes (.tableInit x size default) s [] s
  | tableAssign {x : Text} {index value : Node} {i v : UInt16} {s : Store} :
      index.value? s.vars = some i → value.value? s.vars = some v →
      Executes (.tableAssign (.ident x) index value) s [.store x i v] (s.setCell x i v)
  | wait {t : Text} {d : UInt16} {s : Store} :
      Node.word? t = some d → Executes (.wait t) s [.wait d] s
  | ifTrue {condition consequence : Node} {alternative : Option Node} {s s' : Store}
      {es : List Event} :
      condition.value? s.vars = some 1 → Executes consequence s es s' →
      Executes (.ifElse condition consequence alternative) s es s'
  | ifFalse {condition consequence alternative : Node} {v : UInt16} {s s' : Store} {es : List Event} :
      condition.value? s.vars = some v → v ≠ 1 → Executes alternative s es s' →
      Executes (.ifElse condition consequence (some alternative)) s es s'
  | ifSkip {condition consequence : Node} {v : UInt16} {s : Store} :
      condition.value? s.vars = some v → v ≠ 1 →
      Executes (.ifElse condition consequence none) s [] s
  | whileTrue {condition body : Node} {s s₁ s₂ : Store} {es fs : List Event} :
      condition.value? s.vars = some 1 → Executes body s es s₁ →
      Executes (.whileLoop condition body) s₁ fs s₂ →
      Executes (.whileLoop condition body) s (es ++ fs) s₂
  | whileFalse {condition body : Node} {v : UInt16} {s : Store} :
      condition.value? s.vars = some v → v ≠ 1 → Executes (.whileLoop condition body) s [] s
  | exprStmt {expr : Node} {v : UInt16} {s : Store} :
      expr.value? s.vars = some v → Executes (.exprStmt expr) s [] s
  | program {ns : List Node} {s s' : Store} {es : List Event} :
      Executes (.block ns) s es s' → Executes (.program ns) s es s'

/-! ## Programs -/

/-- The number of cells of the display that have an address. -/
def screenCells : Nat := 0x10000 - screenBase.toNat

namespace Node

/-- The store at the start, with the display as it is shown. -/
def initial (n : Node) (display : UInt16 → UInt16) : Store where
  vars := fun _ => 0
  tables := fun x i =>
    if x = screenName then display i else ((OrderedMap.find? n.tables x).map Prod.snd).getD 0

/-- The table `x` of the program has a cell `i`. -/
def HasCell (n : Node) (x : Text) (i : UInt16) : Prop :=
  if x = screenName then i.toNat < screenCells
  else ∃ size default, OrderedMap.find? n.tables x = some (size, default) ∧ i < size

/-- Every store to a table is to one of its cells. -/
def InBounds (n : Node) (es : List Event) : Prop :=
  ∀ x i v, Event.store x i v ∈ es → n.HasCell x i

end Node

example : (Node.binary .lt (.ident ['x']) (.intLit ['5'])).value? (fun _ => 3) = some 1 := by decide

end Minicore
