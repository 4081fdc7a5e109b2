/-
  RELAY — generators that are asked for one piece after another.

  Problem: a front end may hand over a program piece by piece, go on after a piece that has no code, and
  start another generator that goes on numbering where the last one stopped.

  1. **Program** — `Generator.perform` carries out one `Piece`; a piece that fails leaves behind what
     was numbered and contributed before the fault.  `Generator.performAll` carries out several.

  2. **Handovers** — `relay` is a row of generators: each starts with nothing gathered and with the
     counters that the one before it ended with.
-/
import Minicore.Codegen.Rules

namespace Minicore

/-- A piece that a generator is asked for. -/
inductive Piece where
  | program (n : Node)
  | statement (n : Node)
  | expression (n : Node)

/-- The tree of a piece. -/
def Piece.node : Piece → Node
  | .program n => n
  | .statement n => n
  | .expression n => n

namespace Generator

/-- The generator after a piece, whether there was code for it or not. -/
def perform (g : Generator) : Piece → Generator
  | .program n => (g.run (program n)).2
  | .statement n => (g.run (statement n)).2
  | .expression n => (g.run (expression n)).2

/-- The generator after these pieces. -/
def performAll (g : Generator) (pieces : List Piece) : Generator := pieces.foldl perform g

end Generator

/-- What a row of generators gathers, one after another, each behind the numbers of the one before; and
    the counters at the end. -/
def relay (names : Names) : List (List Piece) → List Streams × Names
  | [] => ([], names)
  | pieces :: rest =>
    let g := (Generator.withNames names).performAll pieces
    let others := relay g.names rest
    (g.streams :: others.1, others.2)

/-- A number is taken, then the piece fails; the next generator goes on behind it. -/
example : (relay Names.fresh
    [[.statement (.whileLoop (.intLit ['x']) (.block [])), .expression (.intLit ['7'])],
     [.expression (.intLit ['8'])]]).2 = ⟨2, 1⟩ := by decide

end Minicore
