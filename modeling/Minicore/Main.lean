/-
  The command line.

  The first argument is the name of the program that is meant; the rest is its own.  A session is
  carried out on the files of the system, step by step.
-/
import Minicore.Command.Programs

namespace Minicore

/-- The text of a file, if it can be read and is text. -/
def readFile? (path : Text) : IO (Option Text) := do
  try
    let s ← IO.FS.readFile (String.ofList path)
    return some s.toList
  catch _ => return none

/-- Writes a file and tells whether that worked. -/
def writeFile? (path t : Text) : IO Bool := do
  try
    IO.FS.writeFile (String.ofList path) (String.ofList t)
    return true
  catch _ => return false

/-- Carries out a session. -/
def Session.perform : Session → IO UInt32
  | .exit code => return UInt32.ofNat code
  | .print t next => do
    IO.print (String.ofList t)
    next.perform
  | .read path next => do
    let content ← readFile? path
    (next content).perform
  | .write path t next => do
    let done ← writeFile? path t
    (next done).perform

end Minicore

/-- Runs the program that the first argument names. -/
def main (args : List String) : IO UInt32 :=
  match args.map String.toList with
  | tool :: rest =>
    if tool == Minicore.Tool.name .assembler then (Minicore.session .assembler rest).perform
    else if tool == Minicore.Tool.name .compiler then (Minicore.session .compiler rest).perform
    else return 2
  | [] => return 2
