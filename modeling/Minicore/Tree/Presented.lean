/-
  PRESENTED TREES — the values that stand for a node.

  Problem: say which values a front end may write for a node, without saying how they are read.  The
  choice is free at every node of the tree, whatever was chosen at the others.

  1. **Fields** — `Node.fields`: what a node holds, field by field, in the order of `Kind.fields`.

  2. **Presentations** — `Presents v n`, with one rule for each of the two forms: a mapping has the kind,
     the fields and further entries in any order; a sequence has the kind and then the fields.
     `Tells given field` says what may be given for a field, if anything.  A literal is given as its
     text or as an integer that has this text; an alternative that is not there is left out or null.

  3. **Integers** — a document has integers from -2⁶³ to 2⁶⁴-1; a wider one leaves it without a value.
     The text of an integer has no sign but a minus and no leading zeros, so `007` can only be given as
     a text.
-/
import Mathlib.Data.List.Forall2
import Minicore.Text.Numeral
import Minicore.Tree.Written

namespace Minicore

/-! ## Fields -/

/-- What one field of a node holds. -/
inductive Field where
  | name (t : Text)
  | literal (t : Text)
  | operator (op : Operator)
  | node (n : Node)
  | nodes (ns : List Node)
  /-- A node that may be missing. -/
  | optional (n : Option Node)

/-- The fields of a node, in their order. -/
def Node.fields : Node → List Field
  | .program ss => [.nodes ss]
  | .block ss => [.nodes ss]
  | .scalarInit x value => [.name x, .node value]
  | .tableInit x size default => [.name x, .literal size, .literal default]
  | .wait duration => [.literal duration]
  | .scalarAssign target value => [.node target, .node value]
  | .tableAssign target index value => [.node target, .node index, .node value]
  | .ifElse condition consequence alternative =>
    [.node condition, .node consequence, .optional alternative]
  | .whileLoop condition body => [.node condition, .node body]
  | .exprStmt expr => [.node expr]
  | .ident x => [.name x]
  | .intLit value => [.literal value]
  | .binary op left right => [.operator op, .node left, .node right]

/-- Every field has a name. -/
theorem Node.length_fields (n : Node) : n.fields.length = n.kind.fields.length := by cases n <;> rfl

/-! ## Integers -/

/-- The integer that a value is. -/
def Value.integer? : Value → Option Int
  | .unsigned n => some n
  | .signed i => some i
  | _ => none

/-- The decimal text of an integer. -/
def Numeral.integer (i : Int) : Text :=
  if i < 0 then '-' :: Numeral.decimal i.natAbs else Numeral.decimal i.natAbs

/-! ## Presentations -/

/-- The key of an entry that says nothing about a node of this kind: a string, but neither the word for
    the kind nor the name of a field. -/
def Kind.Ignores (k : Kind) (key : Value) : Prop :=
  ∃ x, key = .string x ∧ x ≠ kindField ∧ x ∉ k.fields

/-- The entries for the fields that are given, each under its name. -/
def givenEntries : List Text → List (Option Value) → List (Value × Value)
  | f :: fs, some v :: given => (.string f, v) :: givenEntries fs given
  | _ :: fs, none :: given => givenEntries fs given
  | _, _ => []

mutual

/-- The value presents the node. -/
inductive Presents : Value → Node → Prop
  /-- The kind, the fields that are given, and entries that say nothing, in any order. -/
  | mapping {n : Node} {given : List (Option Value)} {others entries : List (Value × Value)}
      (hgiven : List.Forall₂ Tells given n.fields) (hothers : ∀ e ∈ others, n.kind.Ignores e.1)
      (hentries : entries.Perm
        ((.string kindField, .string n.kind.name) :: givenEntries n.kind.fields given ++ others)) :
      Presents (.mapping entries) n
  /-- The kind, then the fields in their order; the last may be left out. -/
  | sequence {n : Node} {items : List Value} {missing : Nat}
      (hgiven : List.Forall₂ Tells (items.map some ++ List.replicate missing none) n.fields) :
      Presents (.sequence (.string n.kind.name :: items)) n

/-- What is given for a field, if anything, tells what the field holds. -/
inductive Tells : Option Value → Field → Prop
  | name (t : Text) : Tells (some (.string t)) (.name t)
  | text (t : Text) : Tells (some (.string t)) (.literal t)
  | integer {v : Value} {i : Int} (hv : v.integer? = some i) (hlow : -0x8000000000000000 ≤ i)
      (hhigh : i ≤ 0xFFFFFFFFFFFFFFFF) : Tells (some v) (.literal (Numeral.integer i))
  | operator (op : Operator) : Tells (some (.string op.sign)) (.operator op)
  | node {v : Value} {n : Node} (h : Presents v n) : Tells (some v) (.node n)
  | nodes {vs : List Value} {ns : List Node} (h : List.Forall₂ Presents vs ns) :
      Tells (some (.sequence vs)) (.nodes ns)
  | missing : Tells none (.optional none)
  | null : Tells (some .null) (.optional none)
  | optional {v : Value} {n : Node} (h : Presents v n) : Tells (some v) (.optional (some n))

end

end Minicore
