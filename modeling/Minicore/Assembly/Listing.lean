/-
  The LISTING — addresses and words beside the source.

  Problem: show a person which words each source line became.

  1. **Program** — `Listing.rows` walks the lines and hands each its share of the records: a line that
     is no statement gets a row without an address, a label a row with its address, every other
     statement one row per record of its own.

  2. **Shape** — the address stands in brackets in the first columns, then the word in red
     (instructions) or cyan (data), then the line number and the trimmed line.
-/
import Minicore.Assembly.Encoding
import Minicore.Text.Terminal

namespace Minicore

/-! ## Rows -/

/-- One row of the listing; every row shows a line number and a text. -/
inductive ListingRow where
  /-- A line without a word or an address. -/
  | plain (line : Nat) (text : Text)
  /-- A label and its address. -/
  | label (address : Option UInt16) (line : Nat) (text : Text)
  /-- A word and its address. -/
  | word (address : UInt16) (word : Word) (line : Nat) (text : Text)
  deriving Repr, DecidableEq

namespace ListingRow

/-- The number of the source line that the row shows. -/
def line : ListingRow → Nat
  | .plain n _ => n
  | .label _ n _ => n
  | .word _ _ n _ => n

/-- The source column: number, colon, text. -/
def source (n : Nat) (t : Text) : Text :=
  "| ".toList ++ Numeral.padLeft ' ' 4 (Numeral.decimal n) ++ ": ".toList ++ t

/-- The colour of a word. -/
def wordColour : Word → Terminal.Colour
  | .instruction _ _ => .red
  | .data _ => .cyan

/-- The row as a line. -/
def text : ListingRow → Text
  | .plain n t => List.replicate 17 ' ' ++ source n t
  | .label a n t =>
    let shown := (a.map fun v => Numeral.hexPadded 2 v.toNat).getD []
    '[' :: Numeral.padLeft ' ' 2 shown ++ ']' :: List.replicate 13 ' ' ++
      source n (Terminal.colour .green t)
  | .word a w n t =>
    '[' :: Numeral.hexPadded 2 a.toNat ++ "] ".toList ++ Terminal.colour (wordColour w) w.text ++
      "     ".toList ++ source n t

end ListingRow

/-! ## The whole listing -/

namespace Listing

/-- The rows of these lines; each statement takes its records from the front. -/
def rows : List SourceLine → List Record → List ListingRow
  | [], _ => []
  | l :: rest, records =>
    match l.statement with
    | none => .plain (l.index + 1) l.text.trim :: rows rest records
    | some (.label _) => .label l.address (l.index + 1) l.text.trim :: rows rest records
    | some s =>
      (records.take s.width).map (fun r => .word r.address r.word (l.index + 1) l.text.trim) ++
        rows rest (records.drop s.width)

/-- The line above the rows, with the path of the source. -/
def header (path : Text) : Text :=
  List.replicate 17 '-' ++ "+------[".toList ++ path ++ ']' ::
    List.replicate (45 - path.byteLength) '-'

/-- The line below the rows. -/
def footer : Text := List.replicate 17 '-' ++ '+' :: List.replicate 53 '-'

/-- The listing of an assembled program whose source has that path. -/
def text (path : Text) (a : Assembly) : Text :=
  ([header path] ++ (rows a.layout.lines a.records).map ListingRow.text ++ [footer]).flatMap
    fun l => l ++ ['\n']

end Listing

example : Listing.footer =
    "-----------------+-----------------------------------------------------".toList := by decide

end Minicore
