/-
  CURSORS — a place in a document.

  A document is read from left to right.  A `Cursor` is what is left of it together with the position
  reached: how many BYTES of the document lie before the next character, its line, and its column in
  CHARACTERS, all counted from zero.  Two questions are asked at every step: is the next character a
  space or a tab (`isSpace`), and does it end the line (`isBreak`).  `Gap` is a run of both, and
  `Gap.fold` is what such a run means between two pieces of one scalar: a single line break is a space,
  further breaks are kept.
-/
import Minicore.Text.Blank

namespace Minicore

namespace Yaml

/-! ## Characters -/

/-- A character that may stand in a document at all.  The controls may not, except for the tab and the
    line breaks, and neither may U+FFFE and U+FFFF. -/
def isAllowed (c : Char) : Bool :=
  let n := c.toNat
  n == 0x09 || n == 0x0A || n == 0x0D || (0x20 ≤ n && n ≤ 0x7E) || n == 0x85 ||
    (0xA0 ≤ n && n ≤ 0xD7FF) || (0xE000 ≤ n && n ≤ 0xFFFD) || (0x10000 ≤ n && n ≤ 0x10FFFF)

/-- A space or a tab. -/
def isSpace (c : Char) : Bool := c == ' ' || c == '\t'

/-- A character that ends a line. -/
def isBreak (c : Char) : Bool :=
  c == '\n' || c == '\r' || c == '\u0085' || c == '\u2028' || c == '\u2029'

/-- A character between two words. -/
def isGap (c : Char) : Bool := isSpace c || isBreak c

/-- Nothing, a space or the end of the line comes next. -/
def gapNext : Text → Bool
  | [] => true
  | c :: _ => isGap c

/-- A marker of three dashes or three dots, standing alone, comes next. -/
def markerNext : Text → Bool
  | '-' :: '-' :: '-' :: rest => gapNext rest
  | '.' :: '.' :: '.' :: rest => gapNext rest
  | _ => false

/-! ## Positions -/

/-- The rest of a document, and the position of its first character. -/
structure Cursor where
  rest : Text
  /-- The bytes before it, in the document. -/
  offset : Nat
  /-- The line breaks before it. -/
  line : Nat
  /-- The characters before it, in its line. -/
  column : Nat
  deriving Repr

namespace Cursor

/-- The start of a document. -/
def start (t : Text) : Cursor := ⟨t, 0, 0, 0⟩

/-- The cursor `n` characters further on, none of which ends a line. -/
def forward (c : Cursor) (n : Nat) : Cursor :=
  ⟨c.rest.drop n, c.offset + Text.byteLength (c.rest.take n), c.line, c.column + n⟩

/-- Past the characters of the class `p`, none of which ends a line. -/
def skipWhile (c : Cursor) (p : Char → Bool) : Cursor := c.forward (c.rest.takeWhile p).length

/-- Past the byte-order mark that may start a line.  It is no part of a word there, but it takes up a
    column; anywhere else the mark is a character like any other. -/
def skipMark (c : Cursor) : Cursor :=
  if c.column == 0 && c.rest.head? == some '\uFEFF' then c.forward 1 else c

/-- Past one line break; a carriage return and a line feed are one break. -/
def skipBreak (c : Cursor) : Cursor :=
  match c.rest with
  | '\r' :: '\n' :: rest => ⟨rest, c.offset + 2, c.line + 1, 0⟩
  | b :: rest => ⟨rest, c.offset + b.utf8Size, c.line + 1, 0⟩
  | [] => c

/-- What the next line break stands for: the Unicode separators for themselves, the others for a
    line feed. -/
def breakText (c : Cursor) : Text :=
  match c.rest with
  | '\u2028' :: _ => ['\u2028']
  | '\u2029' :: _ => ['\u2029']
  | _ => ['\n']

/-- A document marker stands at the start of the line. -/
def atMarker (c : Cursor) : Bool := c.column == 0 && markerNext c.rest

end Cursor

/-! ## Gaps -/

/-- A run of spaces and line breaks: the spaces before the first break, and the breaks. -/
structure Gap where
  spaces : Text
  breaks : List Text
  deriving Repr

namespace Gap

/-- What the gap means between two pieces of a scalar. -/
def fold (g : Gap) : Text :=
  match g.breaks with
  | [] => g.spaces
  | first :: rest =>
    if first == ['\n'] then (if rest.isEmpty then [' '] else rest.flatten)
    else first ++ rest.flatten

/-- The gap reaches into another line. -/
def broken (g : Gap) : Bool := !g.breaks.isEmpty

/-- The breaks from the cursor on, and the cursor behind the gap.  A tab in front of column `indent`
    is no indentation. -/
def breaksFrom (indent : Nat) : Nat → Cursor → List Text → Option (List Text × Cursor)
  | 0, _, _ => none
  | fuel + 1, c, breaks =>
    match c.rest with
    | [] => some (breaks.reverse, c)
    | ch :: _ =>
      if isBreak ch then breaksFrom indent fuel c.skipBreak (c.breakText :: breaks)
      else if ch == '\t' && !breaks.isEmpty && c.column < indent then none
      else if isSpace ch then breaksFrom indent fuel (c.forward 1) breaks
      else some (breaks.reverse, c)

/-- The gap at the cursor, and the cursor behind it. -/
def read (indent : Nat) (c : Cursor) : Option (Gap × Cursor) :=
  let spaces := c.rest.takeWhile isSpace
  (breaksFrom indent (c.rest.length + 1) (c.skipWhile isSpace) []).map fun bc =>
    (⟨spaces, bc.1⟩, bc.2)

end Gap

end Yaml

end Minicore
