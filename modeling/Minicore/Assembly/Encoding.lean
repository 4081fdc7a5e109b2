/-
  ENCODING — the second pass: every statement becomes its words.

  Problem: turn a layout into records, with every name resolved.

  1. **Program** — `encodeLines` walks the lines with an address counter of its own.  Before a
     statement is encoded, the address that the first pass gave it has to be the counter's; only then
     is its parameter looked up.  An instruction gives one record, a declaration one per value, a label
     none.

  2. **The counter is 16 bits wide** — `advance` is the addition that stops at the word size, so a
     hand-made layout of more than 65535 words is a fault and never a wrapped address.  The layouts of
     the first pass hold at most 256 words and do not come near it.
-/
import Minicore.Assembly.Layout

namespace Minicore

/-- The address `n` words further on (the number of words, too, is a 16-bit number), if there is one. -/
def advance (pc : UInt16) (n : Nat) : Except Fault UInt16 :=
  if pc.toNat + n % (maxWord + 1) ≤ maxWord then .ok (UInt16.ofNat (pc.toNat + n % (maxWord + 1)))
  else .error (.ofCause .addressOverflow)

namespace SourceLine

/-- The line as a comment of its records. -/
def comment (l : SourceLine) : Text := l.text.trim

/-- The operand of an instruction: zero when it has no parameter. -/
def operand (l : SourceLine) (map : AddressMap) : Option Param → Except Fault UInt16
  | none => .ok 0
  | some p =>
    match map.resolve p with
    | .ok v => .ok v
    | .error cause => .error ((Fault.ofCause cause).locate l.index l.text)

/-- The records of a statement whose first word is at `pc`. -/
def records (l : SourceLine) (map : AddressMap) (pc : UInt16) :
    Statement → Except Fault (List Record)
  | .code op param => (l.operand map param).map fun v => [⟨pc, .instruction op v, l.comment⟩]
  | .data _ values =>
    values.zipIdx.mapM fun vi => (advance pc vi.2).map fun a => ⟨a, .data vi.1, l.comment⟩
  | .label _ => .ok []

end SourceLine

/-- The records of these lines, when `pc` words come before. -/
def encodeLines (map : AddressMap) (pc : UInt16) : List SourceLine → Except Fault (List Record)
  | [] => .ok []
  | l :: rest =>
    match l.statement with
    | none => encodeLines map pc rest
    | some s =>
      if l.address = some pc then
        match l.records map pc s with
        | .error e => .error e
        | .ok own =>
          match advance pc s.width with
          | .error e => .error e
          | .ok next =>
            match encodeLines map next rest with
            | .error e => .error e
            | .ok others => .ok (own ++ others)
      else .error (.ofCause (.movedLine l.index))

/-- The records of a layout. -/
def Layout.encode (l : Layout) : Except Fault (List Record) := encodeLines l.map 0 l.lines

/-! ## Both passes -/

/-- An assembled program: where everything stands, and the words. -/
structure Assembly where
  layout : Layout
  records : List Record
  deriving Repr

/-- The assembly of a source text. -/
def assemble (t : Text) : Except Fault Assembly :=
  match Layout.ofText t with
  | .error e => .error e
  | .ok l =>
    match l.encode with
    | .error e => .error e
    | .ok records => .ok ⟨l, records⟩

/-! ## Running the program -/

example : (assemble "B here\nhere\n\nthere\nMOV R1, #0x1\n".toList).map (fun a => a.records) =
    .ok [⟨0, .instruction .b 1, "B here".toList⟩,
      ⟨1, .instruction .mov1 1, "MOV R1, #0x1".toList⟩] := rfl
example : (assemble "what is this\n".toList).map (fun a => a.layout.warnings) =
    .ok [⟨0, .ignored⟩] := rfl
example : (assemble "a\nB b".toList).map (fun a => a.records) =
    .error ⟨.unresolvedSymbol "b".toList, some ⟨2, "B b".toList⟩⟩ := rfl

end Minicore
