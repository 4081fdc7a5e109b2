/-
  FILES — what is in a directory, and how a path names it.

  Problem: say what a program finds and leaves in the directory in which it is called.

  1. **Program** — `Files` is a finite map from places to contents.  A place is the list of names on the
     way down from the directory to the file.

  2. **Paths** — `parts` cuts a path at its slashes.  Which parts are names, and where they lead, is a
     matter of the file system that they are followed in.
-/
import Minicore.Text.Blank

namespace Minicore

/-- What is in a file. -/
inductive Content where
  | text (t : Text)
  /-- Bytes that are no text, or that may not be read. -/
  | binary
  deriving Repr, DecidableEq

/-- Files by their places. -/
structure Files where
  entries : List (List Text × Content)
  deriving Repr, DecidableEq

namespace Files

/-- The part of a path that stays. -/
def here : Text := ['.']

/-- The part of a path that leads up. -/
def up : Text := ['.', '.']

/-- The parts of a path between its slashes. -/
def parts (path : Text) : List Text := path.splitBy (· == '/')

end Files

end Minicore
