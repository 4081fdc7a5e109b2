/-
  PARTS of a tree — what occurs in it, and where names stand.

  Problem: what is asked of a whole tree (every name is an identifier; which variables are assigned;
  which tables are declared, and how) concerns all its nodes, however deep.

  1. **Program** — `Node.subnodes` lists every node of a tree, a node before the nodes in it and these
     in their order; `Node.collect f` gathers what `f` finds in single nodes of that list.

  2. **Specification** — what is gathered in a compound statement is what is gathered in its parts, as
     long as `f` finds something in simple statements only (`Simple`); one equation per kind of node.
-/
import Minicore.Machine.Symbol
import Minicore.OrderedMap
import Minicore.Text.Numeral
import Minicore.Tree.Node

namespace Minicore

namespace Node

/-! ## All nodes of a tree -/

mutual

/-- The node, then the nodes in it. -/
def subnodes : Node → List Node
  | .program ss => .program ss :: subnodesOf ss
  | .block ss => .block ss :: subnodesOf ss
  | .scalarInit name value => .scalarInit name value :: value.subnodes
  | .tableInit name size default => [.tableInit name size default]
  | .wait duration => [.wait duration]
  | .scalarAssign target value => .scalarAssign target value :: (target.subnodes ++ value.subnodes)
  | .tableAssign target index value =>
    .tableAssign target index value :: (target.subnodes ++ (index.subnodes ++ value.subnodes))
  | .ifElse condition consequence none =>
    .ifElse condition consequence none :: (condition.subnodes ++ consequence.subnodes)
  | .ifElse condition consequence (some alternative) =>
    .ifElse condition consequence (some alternative) ::
      (condition.subnodes ++ (consequence.subnodes ++ alternative.subnodes))
  | .whileLoop condition body => .whileLoop condition body :: (condition.subnodes ++ body.subnodes)
  | .exprStmt expr => .exprStmt expr :: expr.subnodes
  | .ident name => [.ident name]
  | .intLit value => [.intLit value]
  | .binary op left right => .binary op left right :: (left.subnodes ++ right.subnodes)

/-- The nodes in these nodes. -/
def subnodesOf : List Node → List Node
  | [] => []
  | n :: rest => n.subnodes ++ subnodesOf rest

end

/-! ## Names -/

/-- The name that the node itself gives: of what it declares, assigns to or reads. -/
def name? : Node → Option Text
  | .scalarInit name _ => some name
  | .scalarAssign (.ident name) _ => some name
  | .tableInit name _ _ => some name
  | .tableAssign (.ident name) _ _ => some name
  | .ident name => some name
  | _ => none

/-- Every name in the tree is an identifier. -/
def WellNamed (n : Node) : Prop :=
  ∀ m ∈ n.subnodes, ∀ x, m.name? = some x → x.isIdentifier = true

instance (n : Node) : Decidable n.WellNamed :=
  decidable_of_iff (∀ m ∈ n.subnodes, m.name?.all Text.isIdentifier = true)
    (forall₂_congr fun _ _ => Option.all_eq_true _ _)

/-- The node gives the variable `x` the value of `value`: an assignment, or a first one. -/
def Assigns (n : Node) (x : Text) (value : Node) : Prop :=
  n = .scalarInit x value ∨ n = .scalarAssign (.ident x) value

/-- The variable that the node itself assigns to. -/
def assigned? : Node → Option Text
  | .scalarInit name _ => some name
  | .scalarAssign (.ident name) _ => some name
  | _ => none

/-- The table that the node itself assigns to. -/
def tableTarget? : Node → Option Text
  | .tableAssign (.ident name) _ _ => some name
  | _ => none

/-- The word that a decimal literal stands for, blanks around it ignored. -/
def word? (t : Text) : Option UInt16 := (Numeral.readWord 10 t.trim).toOption

/-- The table that the node itself declares, with the number and the first value of its cells. -/
def table? : Node → Option (Text × UInt16 × UInt16)
  | .tableInit name size default =>
    match word? size, word? default with
    | some n, some v => some (name, n, v)
    | _, _ => none
  | _ => none

/-! ## Gathering over a tree -/

/-- What `f` finds in the nodes of the tree, in their order. -/
def collect {α : Type} (f : Node → Option α) (n : Node) : List α := n.subnodes.filterMap f

/-- The variables that the tree assigns to. -/
def assigned (n : Node) : List Text := n.collect assigned?

/-- The tables that the tree assigns to. -/
def tableTargets (n : Node) : List Text := n.collect tableTarget?

/-- The declared tables, each with the size and the first value of its LAST declaration. -/
def tables (n : Node) : OrderedMap (UInt16 × UInt16) := OrderedMap.ofList (n.collect table?)

/-- `f` finds something in simple statements only: assignments, declarations and pauses. -/
structure Simple {α : Type} (f : Node → Option α) : Prop where
  block : ∀ ss, f (.block ss) = none
  ifElse : ∀ condition consequence alternative, f (.ifElse condition consequence alternative) = none
  whileLoop : ∀ condition body, f (.whileLoop condition body) = none
  exprStmt : ∀ expr, f (.exprStmt expr) = none
  ident : ∀ name, f (.ident name) = none
  intLit : ∀ value, f (.intLit value) = none
  binary : ∀ op left right, f (.binary op left right) = none

theorem simple_tableTarget? : Simple tableTarget? := by constructor <;> intros <;> rfl

section Collect

variable {α : Type} {f : Node → Option α}

theorem collect_cons (n : Node) (ms : List Node) :
    (n :: ms).filterMap f = (f n).toList ++ ms.filterMap f := by
  cases h : f n with
  | none => rw [List.filterMap_cons_none h]; rfl
  | some a => rw [List.filterMap_cons_some h]; rfl

theorem collect_scalarInit (x : Text) (value : Node) :
    (Node.scalarInit x value).collect f = (f (.scalarInit x value)).toList ++ value.collect f := by
  show (Node.scalarInit x value :: value.subnodes).filterMap f = _
  exact collect_cons _ _

theorem collect_program {ss : List Node} (hp : f (.program ss) = none) (hb : f (.block ss) = none) :
    (Node.program ss).collect f = (Node.block ss).collect f := by
  show (Node.program ss :: subnodesOf ss).filterMap f = (Node.block ss :: subnodesOf ss).filterMap f
  rw [collect_cons, collect_cons, hp, hb]

theorem collect_tableInit (x size default : Text) :
    (Node.tableInit x size default).collect f = (f (.tableInit x size default)).toList := by
  show [Node.tableInit x size default].filterMap f = _
  rw [collect_cons, List.filterMap_nil, List.append_nil]

theorem collect_wait (t : Text) : (Node.wait t).collect f = (f (.wait t)).toList := by
  show [Node.wait t].filterMap f = _
  rw [collect_cons, List.filterMap_nil, List.append_nil]

variable (hf : Simple f)
include hf

theorem collect_ident (x : Text) : (Node.ident x).collect f = [] := by
  show [Node.ident x].filterMap f = []
  rw [collect_cons, hf.ident]
  rfl

theorem collect_intLit (t : Text) : (Node.intLit t).collect f = [] := by
  show [Node.intLit t].filterMap f = []
  rw [collect_cons, hf.intLit]
  rfl

theorem collect_binary (op : Operator) (left right : Node) :
    (Node.binary op left right).collect f = left.collect f ++ right.collect f := by
  show (Node.binary op left right :: (left.subnodes ++ right.subnodes)).filterMap f = _
  rw [collect_cons, hf.binary, List.filterMap_append]
  rfl

theorem collect_scalarAssign (x : Text) (value : Node) :
    (Node.scalarAssign (.ident x) value).collect f =
      (f (.scalarAssign (.ident x) value)).toList ++ value.collect f := by
  show (Node.scalarAssign (.ident x) value ::
    ((Node.ident x).subnodes ++ value.subnodes)).filterMap f = _
  rw [collect_cons, List.filterMap_append, ← collect, collect_ident hf, List.nil_append, collect]

theorem collect_tableAssign (x : Text) (index value : Node) :
    (Node.tableAssign (.ident x) index value).collect f =
      (f (.tableAssign (.ident x) index value)).toList ++ (index.collect f ++ value.collect f) := by
  show (Node.tableAssign (.ident x) index value ::
    ((Node.ident x).subnodes ++ (index.subnodes ++ value.subnodes))).filterMap f = _
  rw [collect_cons, List.filterMap_append, List.filterMap_append, ← collect, collect_ident hf,
    List.nil_append, collect, collect]

theorem collect_nil : (Node.block []).collect f = [] := by
  show [Node.block []].filterMap f = []
  rw [collect_cons, hf.block]
  rfl

theorem collect_block (s : Node) (ss : List Node) :
    (Node.block (s :: ss)).collect f = s.collect f ++ (Node.block ss).collect f := by
  show (Node.block (s :: ss) :: (s.subnodes ++ subnodesOf ss)).filterMap f =
    s.collect f ++ (Node.block ss :: subnodesOf ss).filterMap f
  rw [collect_cons, collect_cons, hf.block, hf.block, List.filterMap_append]
  rfl

theorem collect_ifThen (condition consequence : Node) :
    (Node.ifElse condition consequence none).collect f =
      condition.collect f ++ consequence.collect f := by
  show (Node.ifElse condition consequence none ::
    (condition.subnodes ++ consequence.subnodes)).filterMap f = _
  rw [collect_cons, hf.ifElse, List.filterMap_append]
  rfl

theorem collect_ifElse (condition consequence alternative : Node) :
    (Node.ifElse condition consequence (some alternative)).collect f =
      condition.collect f ++ (consequence.collect f ++ alternative.collect f) := by
  show (Node.ifElse condition consequence (some alternative) ::
    (condition.subnodes ++ (consequence.subnodes ++ alternative.subnodes))).filterMap f = _
  rw [collect_cons, hf.ifElse, List.filterMap_append, List.filterMap_append]
  rfl

theorem collect_whileLoop (condition body : Node) :
    (Node.whileLoop condition body).collect f = condition.collect f ++ body.collect f := by
  show (Node.whileLoop condition body :: (condition.subnodes ++ body.subnodes)).filterMap f = _
  rw [collect_cons, hf.whileLoop, List.filterMap_append]
  rfl

theorem collect_exprStmt (expr : Node) : (Node.exprStmt expr).collect f = expr.collect f := by
  show (Node.exprStmt expr :: expr.subnodes).filterMap f = _
  rw [collect_cons, hf.exprStmt]
  rfl

end Collect

end Node

example : (Node.block [.tableInit "t".toList ['3'] ['0'],
    .assignAt "t".toList (.intLit ['1']) (.ident "x".toList),
    .tableInit "t".toList ['5'] ['7']]).tables.entries = [("t".toList, 5, 7)] := by decide

end Minicore
