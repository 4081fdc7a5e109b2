/-
  DOCUMENTS — from tokens to a value.

  Problem: read the value that a YAML or JSON text denotes, or find that it denotes none.

  1. **Program** — `node` and the five collection readers are the grammar of tokens; each returns the
     value read and the tokens behind it.  A missing key, value or item is null.  The readers take as
     much fuel as the tokens can need: of two nested calls at least one consumes a token.

  2. **One document** — a marker may stand in front of it and markers may follow; a second document, or
     any other token behind the first, is a fault, and so is a text without a document.

  3. JSON is read by the same grammar: its brackets, quotes and commas are those of flow collections.
-/
import Minicore.Yaml.Plain
import Minicore.Yaml.Token

namespace Minicore

namespace Yaml

/-! ## The grammar -/

/-- A key or value is missing in front of this token of a block mapping. -/
def endsBlockPart : List Token → Bool
  | .key :: _ | .value :: _ | .blockEnd :: _ => true
  | _ => false

/-- An item is missing in front of this token of a block sequence. -/
def endsBlockItem : List Token → Bool
  | .entry :: _ | .blockEnd :: _ => true
  | _ => false

/-- An item is missing in front of this token of a sequence that has no indentation of its own. -/
def endsHangingItem : List Token → Bool
  | .entry :: _ | .key :: _ | .value :: _ | .blockEnd :: _ => true
  | _ => false

/-- A key or value is missing in front of this token inside the brackets that `close` ends. -/
def endsFlowPart (close : Token) : List Token → Bool
  | t :: _ => t == .value || t == .comma || t == close
  | [] => false

/-- The value of a word. -/
def scalarValue (plain : Bool) (t : Text) : Option Value :=
  if plain then Plain.value t else some (.string t)

/-- What is left after the comma between two parts of a flow collection; a comma may also stand in
    front of the closing bracket. -/
def afterComma (first : Bool) : List Token → Option (List Token)
  | .comma :: rest => if first then none else some rest
  | ts => if first then some ts else none

mutual

/-- One value.  `block` admits block collections, `hanging` a sequence at the column of its key. -/
def node : Nat → Bool → Bool → List Token → Option (Value × List Token)
  | 0, _, _, _ => none
  | fuel + 1, block, hanging, ts =>
    match ts with
    | .scalar plain t :: rest => (scalarValue plain t).map fun v => (v, rest)
    | .flowSequence :: rest => flowItems fuel true rest []
    | .flowMapping :: rest => flowEntries fuel true rest []
    | .blockSequence :: rest => if block then blockItems fuel rest [] else none
    | .blockMapping :: rest => if block then blockEntries fuel rest [] else none
    | .entry :: _ => if hanging then hangingItems fuel ts [] else none
    | _ => none

/-- The items of a block sequence. -/
def blockItems : Nat → List Token → List Value → Option (Value × List Token)
  | 0, _, _ => none
  | fuel + 1, ts, done =>
    match ts with
    | .blockEnd :: rest => some (.sequence done.reverse, rest)
    | .entry :: rest =>
      if endsBlockItem rest then blockItems fuel rest (.null :: done)
      else (node fuel true false rest).bind fun vr => blockItems fuel vr.2 (vr.1 :: done)
    | _ => none

/-- The items of a sequence at the column of its key; whatever is no item ends it. -/
def hangingItems : Nat → List Token → List Value → Option (Value × List Token)
  | 0, _, _ => none
  | fuel + 1, ts, done =>
    match ts with
    | .entry :: rest =>
      if endsHangingItem rest then hangingItems fuel rest (.null :: done)
      else (node fuel true false rest).bind fun vr => hangingItems fuel vr.2 (vr.1 :: done)
    | _ => some (.sequence done.reverse, ts)

/-- The entries of a block mapping. -/
def blockEntries : Nat → List Token → List (Value × Value) → Option (Value × List Token)
  | 0, _, _ => none
  | fuel + 1, ts, done =>
    match ts with
    | .blockEnd :: rest => some (.mapping done.reverse, rest)
    | .key :: rest =>
      (if endsBlockPart rest then some (.null, rest) else node fuel true true rest).bind fun kr =>
        match kr.2 with
        | .value :: rest =>
          (if endsBlockPart rest then some (.null, rest) else node fuel true true rest).bind fun vr =>
            blockEntries fuel vr.2 ((kr.1, vr.1) :: done)
        | rest => blockEntries fuel rest ((kr.1, .null) :: done)
    | _ => none

/-- The items of a sequence in brackets; a key among them makes a mapping of one entry.  Where a question
    mark has no key behind it, the token that stands there instead is lost with it. -/
def flowItems : Nat → Bool → List Token → List Value → Option (Value × List Token)
  | 0, _, _, _ => none
  | fuel + 1, first, ts, done =>
    match ts with
    | .flowSequenceEnd :: rest => some (.sequence done.reverse, rest)
    | _ =>
      (afterComma first ts).bind fun ts =>
        match ts with
        | .flowSequenceEnd :: rest => some (.sequence done.reverse, rest)
        | .key :: rest =>
          (if endsFlowPart .flowSequenceEnd rest then some (.null, rest.drop 1)
            else node fuel false false rest).bind fun kr =>
            match kr.2 with
            | .value :: rest =>
              (if endsFlowPart .flowSequenceEnd rest then some (.null, rest)
                else node fuel false false rest).bind fun vr =>
                  flowItems fuel false vr.2 (.mapping [(kr.1, vr.1)] :: done)
            | rest => flowItems fuel false rest (.mapping [(kr.1, .null)] :: done)
        | _ =>
          (node fuel false false ts).bind fun vr => flowItems fuel false vr.2 (vr.1 :: done)

/-- The entries of a mapping in braces; a word without a colon is a key without a value. -/
def flowEntries : Nat → Bool → List Token → List (Value × Value) → Option (Value × List Token)
  | 0, _, _, _ => none
  | fuel + 1, first, ts, done =>
    match ts with
    | .flowMappingEnd :: rest => some (.mapping done.reverse, rest)
    | _ =>
      (afterComma first ts).bind fun ts =>
        match ts with
        | .flowMappingEnd :: rest => some (.mapping done.reverse, rest)
        | .key :: rest =>
          (if endsFlowPart .flowMappingEnd rest then some (.null, rest)
            else node fuel false false rest).bind fun kr =>
            match kr.2 with
            | .value :: rest =>
              (if endsFlowPart .flowMappingEnd rest then some (.null, rest)
                else node fuel false false rest).bind fun vr =>
                  flowEntries fuel false vr.2 ((kr.1, vr.1) :: done)
            | rest => flowEntries fuel false rest ((kr.1, .null) :: done)
        | _ =>
          (node fuel false false ts).bind fun vr => flowEntries fuel false vr.2 ((vr.1, .null) :: done)

end

/-! ## One document -/

/-- The value of the only document among these tokens. -/
def document (ts : List Token) : Option Value :=
  let body := match ts with
    | .documentStart :: rest => rest
    | _ => ts
  let value := match ts, body with
    | .documentStart :: _, [] => some (Value.null, [])
    | .documentStart :: _, .documentEnd :: _ => some (Value.null, body)
    | _, _ => node (2 * body.length + 2) true false body
  value.bind fun vr => if vr.2.all (· == .documentEnd) then some vr.1 else none

end Yaml

/-- The value that a YAML or JSON text denotes. -/
def Value.ofText? (t : Text) : Option Value :=
  if t.all Yaml.isAllowed then (Yaml.tokens? t).bind Yaml.document else none

/-! ## Running the program -/

example : (Value.ofText? "a: 1\nb:\n- x\n- 'y'\n".toList).map Value.depth = some 2 := by
  decide +kernel
example : (Value.ofText? "[1, \x7b\"a\": 2,\x7d, ]".toList).map Value.depth = some 2 := by
  decide +kernel
example : (Value.ofText? "a:\n - b: 1\n c: 2\n".toList).isNone = true := by decide +kernel
example : (Value.ofText? "[1".toList).isNone = true := by decide +kernel
example : (Value.ofText? []).isNone = true := by decide +kernel
example : (Value.ofText? "\uFEFFa: 1\nb: 2\n".toList).isNone = true := by decide +kernel
example : (Value.ofText? "\uFEFFa: 1\n b: 2\n".toList).isSome = true := by decide +kernel

end Minicore
