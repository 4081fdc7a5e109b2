/-
  SESSIONS — what a program does, step by step.

  Problem: a command prints, reads and writes in turn, and what it does next depends on whether a file
  could be read or written.  To say something about a run, the run has to be a value.

  1. **Program** — a `Session` is the tree of those steps; every branch ends in an exit code.

  2. **Meaning** — `Session.runOn` carries a session out on a file system and returns what was printed, the
     file system afterwards, and the exit code; `Session.run` does so in a directory that holds given files
     and nothing else.  The program proper carries out the same tree on the real files.
-/
import Minicore.Command.FileSystem

namespace Minicore

/-- The steps of a command. -/
inductive Session where
  | exit (code : Nat)
  | print (t : Text) (next : Session)
  /-- Reads a file; what follows gets its text if that worked. -/
  | read (path : Text) (next : Option Text → Session)
  /-- Writes a file; what follows is told whether that worked. -/
  | write (path t : Text) (next : Bool → Session)

/-- What a run leaves behind; `σ` is what stands for the files. -/
structure RunResult (σ : Type) where
  code : Nat
  files : σ
  output : Text
  deriving Repr

namespace Session

/-- Prints a line. -/
def line (t : Text) (next : Session) : Session := .print (t ++ ['\n']) next

/-- Prints `parts`, one behind another. -/
def printAll (parts : List Text) (next : Session) : Session := parts.foldr .print next

/-- Carries out a session on a file system. -/
def runOn : Session → FileSystem → RunResult FileSystem
  | .exit code, fs => ⟨code, fs, []⟩
  | .print t next, fs =>
    let r := next.runOn fs
    ⟨r.code, r.files, t ++ r.output⟩
  | .read path next, fs => (next (fs.read path)).runOn fs
  | .write path t next, fs =>
    match fs.write path t with
    | none => (next false).runOn fs
    | some fs' => (next true).runOn fs'

/-- Carries out a session in a directory that holds these files and nothing else. -/
def run (s : Session) (files : Files) : RunResult Files :=
  let r := s.runOn (.ofFiles files)
  ⟨r.code, r.files.files, r.output⟩

end Session

end Minicore
