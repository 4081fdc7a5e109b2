/-
  WRITTEN TREES — a node as a value.

  Problem: hand a tree on as a document.

  **Program** — a node becomes a mapping: its kind under `kind`, then its fields under their names, in
  their order.  Literals are strings; an alternative that is not there has no entry.
-/
import Minicore.Tree.Node
import Minicore.Yaml.Value

namespace Minicore

/-- The name of the field that tells the kind. -/
def kindField : Text := "kind".toList

/-- A mapping that starts with the kind and goes on with the fields of that kind; the values of the
    last fields may be missing. -/
def Value.ofFields (k : Kind) (values : List Value) : Value :=
  .mapping ((.string kindField, .string k.name) :: (k.fields.map .string).zip values)

mutual

/-- The written form of a node. -/
def Node.toValue : Node → Value
  | .program ss => .ofFields .program [.sequence (Node.toValues ss)]
  | .block ss => .ofFields .block [.sequence (Node.toValues ss)]
  | .scalarInit name value => .ofFields .scalarInit [.string name, value.toValue]
  | .tableInit name size default => .ofFields .tableInit [.string name, .string size, .string default]
  | .wait duration => .ofFields .wait [.string duration]
  | .scalarAssign target value => .ofFields .scalarAssign [target.toValue, value.toValue]
  | .tableAssign target index value =>
    .ofFields .tableAssign [target.toValue, index.toValue, value.toValue]
  | .ifElse condition consequence none =>
    .ofFields .ifElse [condition.toValue, consequence.toValue]
  | .ifElse condition consequence (some alternative) =>
    .ofFields .ifElse [condition.toValue, consequence.toValue, alternative.toValue]
  | .whileLoop condition body => .ofFields .whileLoop [condition.toValue, body.toValue]
  | .exprStmt expr => .ofFields .exprStmt [expr.toValue]
  | .ident name => .ofFields .ident [.string name]
  | .intLit value => .ofFields .intLit [.string value]
  | .binary op left right => .ofFields .binary [.string op.sign, left.toValue, right.toValue]

/-- The written forms of these nodes. -/
def Node.toValues : List Node → List Value
  | [] => []
  | n :: rest => n.toValue :: Node.toValues rest

end

/-- The written forms, one by one. -/
theorem Node.toValues_eq_map (ns : List Node) : Node.toValues ns = ns.map Node.toValue := by
  induction ns with
  | nil => rfl
  | cons n ns ih => rw [Node.toValues, ih, List.map_cons]

end Minicore
