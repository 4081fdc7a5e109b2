/-
  READING TREES — from the value of a document to a node.

  Problem: a node may be presented in several ways.  As a mapping, its fields stand in any order and
  further entries are ignored; as a sequence, its kind comes first and its fields follow in their order.
  A literal may be a string or a number.

  1. **Program** — `Presentation.ofValue?` finds the kind and what is said about each field;
     `Node.ofValue?` then reads each field as its kind asks.  It recurses with the number of nodes that
     may still be nested, which the limit on nesting bounds.

  2. **The limit** — a value with more than 128 nested sequences and mappings is refused as a whole, also
     where the nesting stands in an ignored entry.

  3. **Entries** — a field given twice is a fault, a field not given too, except the alternative.  A key
     is the name of a field or its number, counted from zero; any other string or number is ignored, and
     a key that is neither is a fault.  Below the root a kind, too, may be given by its number.
-/
import Minicore.Text.Numeral
import Minicore.Tree.Written

namespace Minicore

/-- How many sequences and mappings may be nested. -/
def nestingLimit : Nat := 128

/-! ## What is said about a node -/

/-- A kind, and what is said about each of its fields. -/
structure Presentation where
  kind : Kind
  /-- For each field in its order, its value if one is given. -/
  given : List (Option Value)

namespace Presentation

/-- The kind that a value names.  `numbered` admits the number of a kind. -/
def kind? (numbered : Bool) : Value → Option Kind
  | .string t => Kind.ofName? t
  | .unsigned n => if numbered then Kind.all[n]? else none
  | _ => none

/-- Which field a key means: `none` for a key that is no name and no number, `some none` for a key
    that is ignored. -/
def fieldIndex? (k : Kind) : Value → Option (Option Nat)
  | .string t => some (k.fields.findIdx? fun f => f == t)
  | .unsigned n => some (if n < k.fields.length then some n else none)
  | _ => none

/-- The values given for field `i` by entries whose keys have been told apart. -/
def valuesOf (i : Nat) (entries : List (Option Nat × Value)) : List Value :=
  (entries.filter fun e => e.1 == some i).map Prod.snd

/-- The one value given for a field, if there is one; two are a fault. -/
def unique? : List Value → Option (Option Value)
  | [] => some none
  | [v] => some (some v)
  | _ => none

/-- The key is the name of the kind field. -/
def isKindKey : Value → Bool
  | .string t => t == kindField
  | _ => false

/-- What a mapping says. -/
def ofEntries? (numbered : Bool) (entries : List (Value × Value)) : Option Presentation :=
  match (entries.filter fun e => isKindKey e.1).map Prod.snd with
  | [kv] => do
    let k ← kind? numbered kv
    let told ← (entries.filter fun e => !isKindKey e.1).mapM fun e =>
      (fieldIndex? k e.1).map fun i => (i, e.2)
    let given ← (List.range k.fields.length).mapM fun i => unique? (valuesOf i told)
    pure ⟨k, given⟩
  | _ => none

/-- What a sequence says. -/
def ofItems? (numbered : Bool) : List Value → Option Presentation
  | [] => none
  | kv :: rest =>
    match kind? numbered kv with
    | none => none
    | some k =>
      if rest.length ≤ k.fields.length then
        some ⟨k, rest.map some ++ List.replicate (k.fields.length - rest.length) none⟩
      else none

/-- What a value says about the node that it presents. -/
def ofValue? (numbered : Bool) : Value → Option Presentation
  | .mapping entries => ofEntries? numbered entries
  | .sequence items => ofItems? numbered items
  | _ => none

end Presentation

/-! ## Fields -/

/-- A name is a string. -/
def Value.name? : Value → Option Text
  | .string t => some t
  | _ => none

/-- A literal is a string, kept as it is, or an integer, kept as its decimal text. -/
def Value.literal? : Value → Option Text
  | .string t => some t
  | .unsigned n => some (Numeral.decimal n)
  | .signed (.ofNat n) => some (Numeral.decimal n)
  | .signed (.negSucc n) => some ('-' :: Numeral.decimal (n + 1))
  | _ => none

/-- Null, or a mapping without entries. -/
def Value.isUnit : Value → Bool
  | .null => true
  | .mapping [] => true
  | _ => false

/-- An operator is its sign, or a mapping with the sign (or the number of the operator) as its only
    key and nothing as the value. -/
def Value.operator? : Value → Option Operator
  | .string t => Operator.ofSign? t
  | .mapping [(.string t, v)] => if v.isUnit then Operator.ofSign? t else none
  | .mapping [(.unsigned n, v)] => if v.isUnit then Operator.all[n]? else none
  | _ => none

/-- A list of nodes, each read by `read`. -/
def Value.nodes? (read : Value → Option Node) : Value → Option (List Node)
  | .sequence items => items.mapM read
  | _ => none

/-- A node that may be missing or null. -/
def Value.optional? (read : Value → Option Node) : Option Value → Option (Option Node)
  | none => some none
  | some .null => some none
  | some v => (read v).map some

/-! ## Nodes -/

/-- The node that a presentation describes, when `read` reads the nodes in it. -/
def Presentation.node? (read : Value → Option Node) (p : Presentation) : Option Node :=
  match p.kind, p.given with
  | .program, [some ss] => (ss.nodes? read).map .program
  | .block, [some ss] => (ss.nodes? read).map .block
  | .scalarInit, [some name, some value] => do
    pure (.scalarInit (← name.name?) (← read value))
  | .tableInit, [some name, some size, some default] => do
    pure (.tableInit (← name.name?) (← size.literal?) (← default.literal?))
  | .wait, [some duration] => duration.literal?.map .wait
  | .scalarAssign, [some target, some value] => do
    pure (.scalarAssign (← read target) (← read value))
  | .tableAssign, [some target, some index, some value] => do
    pure (.tableAssign (← read target) (← read index) (← read value))
  | .ifElse, [some condition, some consequence, alternative] => do
    pure (.ifElse (← read condition) (← read consequence) (← Value.optional? read alternative))
  | .whileLoop, [some condition, some body] => do
    pure (.whileLoop (← read condition) (← read body))
  | .exprStmt, [some expr] => (read expr).map .exprStmt
  | .ident, [some name] => name.name?.map .ident
  | .intLit, [some value] => value.literal?.map .intLit
  | .binary, [some op, some left, some right] => do
    pure (.binary (← op.operator?) (← read left) (← read right))
  | _, _ => none

/-- The node that a value presents, with at most `limit` nodes nested in one another. -/
def Node.read (numbered : Bool) : Nat → Value → Option Node
  | 0, _ => none
  | limit + 1, v =>
    (Presentation.ofValue? numbered v).bind fun p => p.node? (Node.read true limit)

/-- The node that a value presents. -/
def Node.ofValue? (v : Value) : Option Node :=
  if v.depth ≤ nestingLimit then Node.read false nestingLimit v else none

end Minicore
