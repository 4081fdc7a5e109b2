/-
  PATHS — the names of files.

  Problem: the default output has the name of the input with another extension.

  1. **Program** — `Path.withExtension` works from the end of the path in two steps: it cuts off as many
     characters as the old extension has, and then puts the new one behind the name that is left.

  2. **The file name** — the last part of a path.  Slashes and single dots at its end do not belong to
     the name; a path that ends in `..`, or has no name at all, has no file name.  The extension is what
     follows the last dot of the name, but a dot at its start does not count: `.hidden` has none.

  3. **Why two steps** — between them the path may LOSE its file name: `..x` without its extension is
     `..`, and a path without a file name gets no extension.
-/
import Minicore.Text.Blank

namespace Minicore

namespace Path

/-! ## Paths from their end: the arguments here are reversed -/

/-- The path without the slashes and single dots at its end. -/
def dropTail : Text → Text
  | '/' :: rest => dropTail rest
  | '.' :: '/' :: rest => dropTail rest
  | t => t

/-- The file name and the folder in front of it, the slash between them with the folder. -/
def split? (path : Text) : Option (Text × Text) :=
  let tail := dropTail path
  let name := tail.takeWhile (· != '/')
  if name == [] || name == ['.'] || name == ['.', '.'] then none
  else some (name, tail.dropWhile (· != '/'))

/-- The stem and the extension of a file name; without an extension the name is the stem. -/
def stemAndExtension (name : Text) : Text × Text :=
  match name.dropWhile (· != '.') with
  | _ :: c :: rest => (c :: rest, name.takeWhile (· != '.'))
  | _ => (name, [])

/-- The path without as many characters as the extension of its file name has. -/
def cutExtension (path : Text) : Text :=
  match split? path with
  | none => path
  | some (name, _) => path.drop (stemAndExtension name).2.length

/-- The path with its file name up to the stem, and then a dot and `extension`. -/
def putExtension (path extension : Text) : Text :=
  match split? path with
  | none => path
  | some (name, folder) => extension.reverse ++ '.' :: (stemAndExtension name).1 ++ folder

/-! ## Another extension -/

/-- The path with another extension of its file name. -/
def withExtension (path extension : Text) : Text :=
  (putExtension (cutExtension path.reverse) extension).reverse

end Path

/-! ## Running the program -/

example : Path.withExtension "a.b.asm".toList "mif".toList = "a.b.mif".toList := by decide
example : Path.withExtension ".hidden".toList "mif".toList = ".hidden.mif".toList := by decide
example : Path.withExtension "a.".toList "mif".toList = "a.mif".toList := by decide
example : Path.withExtension "d.x/file".toList "mif".toList = "d.x/file.mif".toList := by decide
example : Path.withExtension "a.b/".toList "mif".toList = "a.mif".toList := by decide
example : Path.withExtension "d/..x".toList "mif".toList = "d/..".toList := by decide
example : Path.withExtension "..x/".toList "mif".toList = "..mif".toList := by decide

end Minicore
