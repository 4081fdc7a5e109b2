/-
  VALUES — what a YAML or JSON document denotes.

  A document denotes a tree of scalars, sequences and mappings.  Numbers are kept as far as a reader
  of trees can tell them apart: integers with their value, written without or with a minus sign;
  floating-point numbers only as such.  A mapping is the list of its entries as written, repeated keys
  included, and a key may be any value.

  **Nesting** — `Value.depth` counts the sequences and mappings around the innermost scalar.
-/
import Minicore.Text.Blank

namespace Minicore

/-- The value of a document. -/
inductive Value where
  | null
  | bool (b : Bool)
  /-- An integer written without a minus sign. -/
  | unsigned (n : Nat)
  /-- An integer written with a minus sign. -/
  | signed (n : Int)
  | float
  | string (t : Text)
  | sequence (items : List Value)
  | mapping (entries : List (Value × Value))
  deriving Repr, Inhabited

mutual

/-- The number of nested sequences and mappings. -/
def Value.depth : Value → Nat
  | .sequence items => Value.listDepth items + 1
  | .mapping entries => Value.entriesDepth entries + 1
  | _ => 0

/-- The greatest depth among these values. -/
def Value.listDepth : List Value → Nat
  | [] => 0
  | v :: rest => max v.depth (Value.listDepth rest)

/-- The greatest depth among these keys and values. -/
def Value.entriesDepth : List (Value × Value) → Nat
  | [] => 0
  | (k, v) :: rest => max (max k.depth v.depth) (Value.entriesDepth rest)

end

/-- An item lies less deep than its sequence. -/
theorem Value.depth_le_listDepth {v : Value} {items : List Value} (h : v ∈ items) :
    v.depth ≤ Value.listDepth items := by
  induction items with
  | nil => cases h
  | cons w items ih =>
    rw [Value.listDepth]
    rcases List.mem_cons.1 h with rfl | h
    · omega
    · have := ih h; omega

/-- A key and a value lie less deep than their mapping. -/
theorem Value.depth_le_entriesDepth {k v : Value} {entries : List (Value × Value)}
    (h : (k, v) ∈ entries) :
    k.depth ≤ Value.entriesDepth entries ∧ v.depth ≤ Value.entriesDepth entries := by
  induction entries with
  | nil => cases h
  | cons e entries ih =>
    obtain ⟨k', v'⟩ := e
    rw [Value.entriesDepth]
    rcases List.mem_cons.1 h with he | h
    · injection he with hk hv
      subst hk hv
      omega
    · have := ih h; omega

example : (Value.mapping [(.string ['a'], .sequence [.null])]).depth = 2 := by decide

end Minicore
