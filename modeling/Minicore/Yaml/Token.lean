/-
  TOKENS of a document.

  Problem: the structure of a document is told partly by indentation and partly by brackets, and
  whether a word is a KEY is known only when the colon behind it is reached.

  1. **Program** — `Scanner.tokenAt` reads one token.  Indentation opens and closes block collections:
     `indents` is the stack of the open ones, `openBlock` opens one at a column that is further in,
     `closeWhile` closes those that are further in than the current column.  Every word that may turn
     out to be a key is remembered with the position of its token (`KeySlot`), one per bracket level;
     when the colon comes, a key token is put in front of it.

  2. **Keys** — a remembered word is given up when the line ends or more than 1024 BYTES have passed.  In
     a block collection a word at the column of the collection MUST be a key, and giving it up is a
     fault.

  3. **Byte-order marks** — one may stand in front of any line, not only the first.  Since it takes up a
     column, a block collection behind it is further in than one on the lines below.

  4. Documents are read without anchors, aliases, tags, block scalars and directives.
-/
import Minicore.Yaml.Scalar

namespace Minicore

namespace Yaml

/-! ## Tokens -/

/-- The smallest parts of a document that mean something. -/
inductive Token where
  /-- A block sequence begins. -/
  | blockSequence
  /-- A block mapping begins. -/
  | blockMapping
  /-- A block collection ends. -/
  | blockEnd
  /-- The dash in front of an item. -/
  | entry
  /-- What follows is a key. -/
  | key
  /-- What follows is the value of the key. -/
  | value
  | flowSequence
  | flowSequenceEnd
  | flowMapping
  | flowMappingEnd
  | comma
  /-- A word, plain or quoted. -/
  | scalar (plain : Bool) (text : Text)
  | documentStart
  | documentEnd
  deriving Repr, DecidableEq

/-! ## The state of reading -/

/-- A word that may be a key: whether it must be one, the position of its token, and its place. -/
structure KeySlot where
  required : Bool
  position : Nat
  offset : Nat
  line : Nat
  column : Nat
  deriving Repr

/-- What is known while a document is cut into tokens. -/
structure Scanner where
  cursor : Cursor
  /-- The columns of the open block collections, innermost first. -/
  indents : List Nat
  /-- The word that may be a key, for each open bracket and, last, outside of all. -/
  slots : List (Option KeySlot)
  /-- A word may be a key here, and a block collection may begin. -/
  keyAllowed : Bool
  /-- The tokens so far, newest first. -/
  output : List Token
  /-- The number of tokens so far. -/
  count : Nat
  deriving Repr

namespace Scanner

/-- The start of a document. -/
def start (t : Text) : Scanner := ⟨Cursor.start t, [], [none], true, [], 0⟩

/-- Inside a bracket. -/
def inFlow (s : Scanner) : Bool := s.slots.length > 1

/-- The column is further in than every open block collection. -/
def deeper (s : Scanner) (column : Nat) : Bool :=
  match s.indents with
  | [] => true
  | i :: _ => i < column

/-- The state after one more token. -/
def emit (s : Scanner) (t : Token) : Scanner :=
  { s with output := t :: s.output, count := s.count + 1 }

/-- The state after a token put in at that position. -/
def emitAt (s : Scanner) (position : Nat) (t : Token) : Scanner :=
  let later := s.count - position
  { s with
    output := s.output.take later ++ t :: s.output.drop later
    count := s.count + 1 }

/-- The same state at another cursor. -/
def moveTo (s : Scanner) (c : Cursor) : Scanner := { s with cursor := c }

/-- The same state with keys allowed or not. -/
def allow (s : Scanner) (b : Bool) : Scanner := { s with keyAllowed := b }

/-- The same state with other key slots. -/
def withSlots (s : Scanner) (slots : List (Option KeySlot)) : Scanner := { s with slots := slots }

/-! ## Indentation -/

/-- Opens a block collection at `column` if that is further in; its token goes to `position`. -/
def openBlock (s : Scanner) (column position : Nat) (t : Token) : Scanner :=
  if !s.inFlow && s.deeper column then
    { s.emitAt position t with indents := column :: s.indents }
  else s

/-- Closes the block collections of the class `p` from the inside. -/
def closeWhile (s : Scanner) (p : Nat → Bool) : Scanner :=
  if s.inFlow then s
  else
    let closed := (s.indents.takeWhile p).length
    { s with
      indents := s.indents.drop closed
      output := List.replicate closed .blockEnd ++ s.output
      count := s.count + closed }

/-! ## Keys -/

/-- Gives up the word that may be a key, unless it must be one. -/
def forgetKey (s : Scanner) : Option Scanner :=
  match s.slots with
  | some k :: rest => if k.required then none else some (s.withSlots (none :: rest))
  | _ => some s

/-- Remembers that the next token may turn out to be a key. -/
def rememberKey (s : Scanner) : Option Scanner :=
  if s.keyAllowed then
    let required := !s.inFlow && s.indents.head? == some s.cursor.column
    s.forgetKey.map fun s =>
      let here := ⟨required, s.count, s.cursor.offset, s.cursor.line, s.cursor.column⟩
      s.withSlots (some here :: s.slots.drop 1)
  else some s

/-- A word is no key any more on another line, or more than 1024 bytes on. -/
def isExpired (c : Cursor) (k : KeySlot) : Bool := k.line < c.line || k.offset + 1024 < c.offset

/-- Gives up the words that are no keys any more, at every level. -/
def forgetExpired (s : Scanner) : Option Scanner :=
  (s.slots.mapM fun slot =>
    match slot with
    | none => some none
    | some k =>
      if isExpired s.cursor k then (if k.required then none else some none) else some (some k)).map
    s.withSlots

/-! ## Between tokens -/

/-- Past byte-order marks, spaces, comments and line breaks.  A tab separates words, but it does not indent. -/
def toToken : Nat → Scanner → Scanner
  | 0, s => s
  | fuel + 1, s =>
    let tabs := s.inFlow || !s.keyAllowed
    let c := s.cursor.skipMark.skipWhile fun ch => ch == ' ' || (tabs && ch == '\t')
    let c := if c.rest.head? == some '#' then c.skipWhile fun ch => !isBreak ch else c
    if c.rest.head?.any isBreak then
      toToken fuel ((s.moveTo c.skipBreak).allow (s.keyAllowed || !s.inFlow))
    else s.moveTo c

/-! ## One token -/

/-- A bracket opens. -/
def openFlow (s : Scanner) (t : Token) : Option Scanner :=
  s.rememberKey.map fun s =>
    (((s.withSlots (none :: s.slots)).allow true).emit t).moveTo (s.cursor.forward 1)

/-- A bracket closes; one that was never opened is left to the grammar. -/
def closeFlow (s : Scanner) (t : Token) : Option Scanner :=
  s.forgetKey.map fun s =>
    (((if s.inFlow then s.withSlots (s.slots.drop 1) else s).allow false).emit t).moveTo
      (s.cursor.forward 1)

/-- A comma. -/
def commaToken (s : Scanner) : Option Scanner :=
  s.forgetKey.map fun s => ((s.allow true).emit .comma).moveTo (s.cursor.forward 1)

/-- A dash before a gap: an item of a block sequence. -/
def entryToken (s : Scanner) : Option Scanner :=
  if !s.inFlow && !s.keyAllowed then none
  else
    (s.openBlock s.cursor.column s.count .blockSequence).forgetKey.map fun s =>
      ((s.allow true).emit .entry).moveTo (s.cursor.forward 1)

/-- A question mark: a key that is more than one word. -/
def keyToken (s : Scanner) : Option Scanner :=
  if !s.inFlow && !s.keyAllowed then none
  else
    (s.openBlock s.cursor.column s.count .blockMapping).forgetKey.map fun s =>
      ((s.allow (!s.inFlow)).emit .key).moveTo (s.cursor.forward 1)

/-- A colon: the remembered word is a key, or the key was marked before. -/
def valueToken (s : Scanner) : Option Scanner :=
  match s.slots with
  | some k :: rest =>
    let s := ((s.emitAt k.position .key).openBlock k.column k.position .blockMapping).withSlots
      (none :: rest)
    some (((s.allow false).emit .value).moveTo (s.cursor.forward 1))
  | _ =>
    if !s.inFlow && !s.keyAllowed then none
    else
      let s := s.openBlock s.cursor.column s.count .blockMapping
      some (((s.allow (!s.inFlow)).emit .value).moveTo (s.cursor.forward 1))

/-- A quoted scalar. -/
def quotedToken (s : Scanner) (single : Bool) : Option Scanner :=
  s.rememberKey.bind fun s =>
    (Quoted.read single (s.cursor.forward 1)).map fun tc =>
      ((s.allow false).emit (.scalar false tc.1)).moveTo tc.2

/-- A plain scalar.  Its further lines are indented more than the collection it stands in. -/
def plainToken (s : Scanner) : Option Scanner :=
  s.rememberKey.bind fun s =>
    let indent := match s.indents with
      | [] => 0
      | i :: _ => i + 1
    (PlainScalar.read s.inFlow indent s.cursor).map fun r =>
      ((s.allow r.broken).emit (.scalar true r.text)).moveTo r.cursor

/-- A marker between documents: every open block collection ends. -/
def markerToken (s : Scanner) (t : Token) : Option Scanner :=
  (s.closeWhile fun _ => true).forgetKey.map fun s =>
    ((s.allow false).emit t).moveTo (s.cursor.forward 3)

/-- The characters that start no plain scalar. -/
def isIndicator (c : Char) : Bool := "-?:,[]\x7b\x7d#&*!|>'\"%@`".toList.contains c

/-- A plain scalar can start here. -/
def startsPlain (flow : Bool) (c : Char) (rest : Text) : Bool :=
  (!isIndicator c && !isGap c) || (c == '-' && !(rest.head?.any isSpace)) ||
    (!flow && (c == '?' || c == ':') && !gapNext rest)

/-- The token at the cursor, where something other than a gap stands. -/
def tokenAt (s : Scanner) (c : Char) (rest : Text) : Option Scanner :=
  if s.cursor.column == 0 && c == '%' then none
  else if s.cursor.atMarker then s.markerToken (if c == '-' then .documentStart else .documentEnd)
  else if c == '[' then s.openFlow .flowSequence
  else if c == '\x7b' then s.openFlow .flowMapping
  else if c == ']' then s.closeFlow .flowSequenceEnd
  else if c == '\x7d' then s.closeFlow .flowMappingEnd
  else if c == ',' then s.commaToken
  else if c == '-' && gapNext rest then s.entryToken
  else if c == '?' && (s.inFlow || gapNext rest) then s.keyToken
  else if c == ':' && (s.inFlow || gapNext rest) then s.valueToken
  else if c == '\'' then s.quotedToken true
  else if c == '"' then s.quotedToken false
  else if startsPlain s.inFlow c rest then s.plainToken
  else none

/-- All tokens from here on; at the end every block collection is closed. -/
def run : Nat → Scanner → Option (List Token)
  | 0, _ => none
  | fuel + 1, s =>
    (toToken (s.cursor.rest.length + 1) s).forgetExpired.bind fun s =>
      let s := s.closeWhile fun i => i > s.cursor.column
      match s.cursor.rest with
      | [] => (s.closeWhile fun _ => true).forgetKey.map fun s => s.output.reverse
      | c :: rest => (s.tokenAt c rest).bind (run fuel)

end Scanner

/-- The tokens of a document, if it can be cut into tokens. -/
def tokens? (t : Text) : Option (List Token) := Scanner.run (t.length + 1) (Scanner.start t)

end Yaml

end Minicore
