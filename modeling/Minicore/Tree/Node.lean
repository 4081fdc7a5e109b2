/-
  NODES — the syntax tree that a front end hands over.

  Problem: a program is a tree of statements and expressions.  The tree is taken as it comes: which kind
  of node stands where, how names are spelled and whether numbers fit is the generator's business, so
  one type holds every node and all literals are texts.

  1. **Program** — `Node` has one constructor per kind.  `Node.kind` is its kind; `Kind.name` is the word
     that marks it in a document, and `Kind.fields` are the names of its fields in their order.

  2. **Classes** — a node is an expression, or a statement, or it is a program, which stands at the root
     only (`isExpr_or_isStmt_or_program`).
-/
import Minicore.Text.Blank

namespace Minicore

/-! ## Operators -/

/-- The operators between two expressions. -/
inductive Operator where
  | add
  | sub
  | mul
  | eq
  | lt
  deriving Repr, DecidableEq

namespace Operator

/-- Every operator, in the order of their numbers. -/
def all : List Operator := [.add, .sub, .mul, .eq, .lt]

/-- The written form. -/
def sign : Operator → Text
  | .add => ['+']
  | .sub => ['-']
  | .mul => ['*']
  | .eq => ['=', '=']
  | .lt => ['<']

/-- The operator of that sign. -/
def ofSign? (t : Text) : Option Operator := all.find? fun op => op.sign == t

/-- Reading is the inverse of writing. -/
theorem ofSign?_eq_some_iff {t : Text} {op : Operator} : ofSign? t = some op ↔ t = op.sign := by
  constructor
  · intro h
    have := List.find?_some h
    exact (beq_iff_eq.1 this).symm
  · rintro rfl
    cases op <;> decide

end Operator

/-! ## Nodes -/

/-- A node of the tree. -/
inductive Node where
  | program (statements : List Node)
  | block (statements : List Node)
  /-- A variable gets its first value. -/
  | scalarInit (name : Text) (value : Node)
  /-- A table of that many cells, all with the same value. -/
  | tableInit (name size default : Text)
  /-- A pause. -/
  | wait (duration : Text)
  | scalarAssign (target value : Node)
  | tableAssign (target index value : Node)
  | ifElse (condition consequence : Node) (alternative : Option Node)
  | whileLoop (condition body : Node)
  /-- An expression whose value is not used. -/
  | exprStmt (expr : Node)
  | ident (name : Text)
  | intLit (value : Text)
  | binary (op : Operator) (left right : Node)
  deriving Repr, Inhabited

/-! ## Kinds -/

/-- The kinds of node. -/
inductive Kind where
  | program
  | block
  | scalarInit
  | tableInit
  | wait
  | scalarAssign
  | tableAssign
  | ifElse
  | whileLoop
  | exprStmt
  | ident
  | intLit
  | binary
  deriving Repr, DecidableEq

namespace Kind

/-- Every kind, in the order of their numbers. -/
def all : List Kind :=
  [.program, .block, .scalarInit, .tableInit, .wait, .scalarAssign, .tableAssign, .ifElse, .whileLoop,
   .exprStmt, .ident, .intLit, .binary]

/-- The word for a kind. -/
def name : Kind → Text
  | .program => "program".toList
  | .block => "block".toList
  | .scalarInit => "scalar_init".toList
  | .tableInit => "table_init".toList
  | .wait => "wait".toList
  | .scalarAssign => "scalar_assign".toList
  | .tableAssign => "table_assign".toList
  | .ifElse => "if".toList
  | .whileLoop => "while".toList
  | .exprStmt => "expr_stmt".toList
  | .ident => "ident".toList
  | .intLit => "int_lit".toList
  | .binary => "infix".toList

/-- The names of the fields, in their order. -/
def fields : Kind → List Text
  | .program => ["statements".toList]
  | .block => ["statements".toList]
  | .scalarInit => ["name".toList, "value".toList]
  | .tableInit => ["name".toList, "size".toList, "default".toList]
  | .wait => ["duration".toList]
  | .scalarAssign => ["target".toList, "value".toList]
  | .tableAssign => ["target".toList, "index".toList, "value".toList]
  | .ifElse => ["condition".toList, "consequence".toList, "alternative".toList]
  | .whileLoop => ["condition".toList, "body".toList]
  | .exprStmt => ["expr".toList]
  | .ident => ["name".toList]
  | .intLit => ["value".toList]
  | .binary => ["op".toList, "left".toList, "right".toList]

/-- The kind of that word. -/
def ofName? (t : Text) : Option Kind := all.find? fun k => k.name == t

/-- Reading is the inverse of writing. -/
theorem ofName?_eq_some_iff {t : Text} {k : Kind} : ofName? t = some k ↔ t = k.name := by
  constructor
  · intro h
    have := List.find?_some h
    exact (beq_iff_eq.1 this).symm
  · rintro rfl
    cases k <;> decide

/-- No two fields of a kind have the same name. -/
theorem nodup_fields (k : Kind) : k.fields.Nodup := by cases k <;> decide

end Kind

namespace Node

/-- The kind of a node. -/
def kind : Node → Kind
  | .program _ => .program
  | .block _ => .block
  | .scalarInit _ _ => .scalarInit
  | .tableInit _ _ _ => .tableInit
  | .wait _ => .wait
  | .scalarAssign _ _ => .scalarAssign
  | .tableAssign _ _ _ => .tableAssign
  | .ifElse _ _ _ => .ifElse
  | .whileLoop _ _ => .whileLoop
  | .exprStmt _ => .exprStmt
  | .ident _ => .ident
  | .intLit _ => .intLit
  | .binary _ _ _ => .binary

/-- The node has a value. -/
def isExpr (n : Node) : Bool :=
  match n.kind with
  | .ident | .intLit | .binary => true
  | _ => false

/-- The node may stand in a list of statements. -/
def isStmt (n : Node) : Bool := !n.isExpr && n.kind != .program

/-- Every node belongs to one of the three classes. -/
theorem isExpr_or_isStmt_or_program (n : Node) :
    n.isExpr = true ∨ n.isStmt = true ∨ n.kind = .program := by
  cases n <;> simp [isExpr, isStmt, kind]

/-- An assignment to a variable. -/
def assign (name : Text) (value : Node) : Node := .scalarAssign (.ident name) value

/-- An assignment to a cell of a table. -/
def assignAt (name : Text) (index value : Node) : Node := .tableAssign (.ident name) index value

end Node

end Minicore
