/-
  SCALARS — the words of a document.

  Problem: a scalar is plain, single-quoted or double-quoted, and may go on over several lines.

  1. **Program** — `Quoted.read` starts behind the opening quote.  Two single quotes are one;
     between double quotes a backslash introduces an escape, and a backslash at the end of a line joins
     the two lines.  `PlainScalar.read` takes stretches without gaps and joins them by what the gaps
     between them mean.

  2. **Where a plain scalar ends** — at a colon before a gap, at a `#` behind a gap, at a flow
     indicator inside brackets, and at a line that is not indented enough.
-/
import Minicore.Text.Numeral
import Minicore.Yaml.Cursor

namespace Minicore

namespace Yaml

/-! ## Quoted scalars -/

namespace Quoted

/-- The characters that stand for themselves or for a control character behind a backslash. -/
def simpleEscapes : List (Char × Char) :=
  [('0', '\x00'), ('a', '\x07'), ('b', '\x08'), ('t', '\t'), ('\t', '\t'), ('n', '\n'), ('v', '\x0b'),
   ('f', '\x0c'), ('r', '\r'), ('e', '\x1b'), (' ', ' '), ('"', '"'), ('/', '/'), ('\\', '\\'),
   ('N', '\u0085'), ('_', '\u00a0'), ('L', '\u2028'), ('P', '\u2029')]

/-- How many hexadecimal digits a numbered escape has. -/
def escapeWidth? : Char → Option Nat
  | 'x' => some 2
  | 'u' => some 4
  | 'U' => some 8
  | _ => none

/-- The character of that number; surrogates are none. -/
def character? (n : Nat) : Option Char :=
  if h : n.isValidChar then some (Char.ofNatAux n h) else none

/-- The character of the hexadecimal digits in front of `t`. -/
def numbered? (width : Nat) (t : Text) : Option Char :=
  let digits := t.take width
  if digits.length < width then none
  else (digits.foldlM (fun n c => (Numeral.digit? 16 c).map fun d => n * 16 + d) 0).bind character?

/-- The character of an escape, and how many characters the escape has behind its backslash. -/
def escape? : Text → Option (Char × Nat)
  | [] => none
  | c :: rest =>
    match simpleEscapes.lookup c with
    | some e => some (e, 1)
    | none => (escapeWidth? c).bind fun w => (numbered? w rest).map fun e => (e, w + 1)

/-- The text up to the closing quote (`done` is reversed), and the cursor behind it. -/
def readFrom (single : Bool) : Nat → Cursor → Text → Option (Text × Cursor)
  | 0, _, _ => none
  | fuel + 1, c, done =>
    if c.atMarker then none
    else match c.rest with
      | [] => none
      | ch :: rest =>
        if single && ch == '\'' then
          match rest with
          | '\'' :: _ => readFrom single fuel (c.forward 2) ('\'' :: done)
          | _ => some (done.reverse, c.forward 1)
        else if !single && ch == '"' then some (done.reverse, c.forward 1)
        else if !single && ch == '\\' then
          match rest with
          | [] => none
          | e :: _ =>
            if isBreak e then
              (Gap.breaksFrom 0 (rest.length + 1) (c.forward 1).skipBreak []).bind fun bc =>
                readFrom single fuel bc.2 (bc.1.flatten.reverse ++ done)
            else (escape? rest).bind fun en =>
              readFrom single fuel (c.forward (en.2 + 1)) (en.1 :: done)
        else if isGap ch then
          (Gap.read 0 c).bind fun gc => readFrom single fuel gc.2 (gc.1.fold.reverse ++ done)
        else readFrom single fuel (c.forward 1) (ch :: done)

/-- The quoted scalar behind its opening quote. -/
def read (single : Bool) (c : Cursor) : Option (Text × Cursor) :=
  readFrom single (c.rest.length + 1) c []

end Quoted

/-! ## Plain scalars -/

namespace PlainScalar

/-- The brackets, braces and the comma that end a plain scalar inside a flow collection. -/
def isFlowIndicator (c : Char) : Bool := c == ',' || c == '[' || c == ']' || c == '\x7b' || c == '\x7d'

/-- A stretch of a plain scalar without gaps, up to what ends it.  Inside a flow collection a colon
    directly before an indicator is a fault. -/
def stretch (flow : Bool) : Text → Option Text
  | [] => some []
  | c :: rest =>
    if isGap c then some []
    else if flow && c == ':' && rest.head?.any fun d => isFlowIndicator d || d == '?' then none
    else if (c == ':' && gapNext rest) || (flow && isFlowIndicator c) then some []
    else (stretch flow rest).map (c :: ·)

/-- A plain scalar: its text, the cursor behind it, and whether a line break lies in between. -/
structure Result where
  text : Text
  cursor : Cursor
  broken : Bool

/-- The scalar that goes on at the cursor.  `done` is what came before, and `gap` what the gap in
    front of the cursor adds if anything follows it. -/
def readFrom (flow : Bool) (indent : Nat) : Nat → Cursor → Text → Text → Bool → Option Result
  | 0, _, _, _, _ => none
  | fuel + 1, c, done, gap, broken =>
    if c.atMarker || c.rest.head? == some '#' then some ⟨done, c, broken⟩
    else (stretch flow c.rest).bind fun piece =>
      if piece.isEmpty then some ⟨done, c, broken⟩
      else
        let done := done ++ gap ++ piece
        let c := c.forward piece.length
        if c.rest.head?.any isGap then
          (Gap.read indent c).bind fun gc =>
            if !flow && gc.2.column < indent then some ⟨done, gc.2, gc.1.broken⟩
            else readFrom flow indent fuel gc.2 done gc.1.fold gc.1.broken
        else some ⟨done, c, false⟩

/-- The plain scalar at the cursor.  Lines of it that are not indented by `indent` are not its own. -/
def read (flow : Bool) (indent : Nat) (c : Cursor) : Option Result :=
  readFrom flow indent (c.rest.length + 1) c [] [] false

end PlainScalar

end Yaml

end Minicore
