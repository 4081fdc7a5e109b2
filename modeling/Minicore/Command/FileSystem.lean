/-
  FILE SYSTEMS — what paths lead to, and what reading and writing do there.

  Problem: a run reads and writes under paths that were made from one another, and two paths that look
  different may lead to ONE file: by way of dots, through a link, or because two directories list it.

  1. **Objects** — files, directories and links have numbers.  A directory has a parent and lists names
     with numbers, so a file may stand under several names and a directory may be empty.  A link holds
     a path.  A number without an object leads nowhere.

  2. **Paths** — `location?` follows a path from the root or from the working directory.  Empty parts and
     single dots stay, two dots go to the parent, and every part but the last has to lead to a directory.
     A link is replaced by its path, which starts in the directory of the link; of links that lead to
     links at most forty are followed, so a circle leads nowhere.  The last name alone may be missing.

  3. **Failures** — reading fails where there is no file or where the file is no text; writing fails
     where a directory on the way is missing and where the path leads to a directory.  A missing file is
     made, a missing directory is not.  Permissions and limits on the length of names are left out, but a
     file that may not be read counts as one that is no text.

  4. **One directory** — `ofFiles` lays files out in a directory that was empty, and `files` lists what a
     run has left there.
-/
import Minicore.Command.Files
import Minicore.OrderedMap

namespace Minicore

/-- What has a number in a file system. -/
inductive Object where
  | file (content : Content)
  | directory (parent : Nat) (entries : OrderedMap Nat)
  /-- Another path in place of this name. -/
  | link (target : Text)
  deriving Repr

/-- Objects by their numbers. -/
structure FileSystem where
  objects : List Object
  root : Nat
  /-- The working directory. -/
  current : Nat
  deriving Repr

/-- Where a path leads. -/
inductive Location where
  | found (number : Nat)
  /-- A name that the directory does not have yet. -/
  | missing (directory : Nat) (name : Text)
  deriving Repr, DecidableEq

namespace FileSystem

/-! ## Following a path -/

/-- The object with that number. -/
def object? (fs : FileSystem) (number : Nat) : Option Object := fs.objects[number]?

/-- Where a path starts that stands in `directory`; the empty path leads nowhere. -/
def start? (fs : FileSystem) (directory : Nat) : Text → Option Nat
  | [] => none
  | c :: _ => some (if c == '/' then fs.root else directory)

/-- Where one part of a path leads from a directory. -/
inductive Step where
  | object (number : Nat)
  /-- To a link, whose path starts at an object. -/
  | link (start : Nat) (target : Text)
  /-- To no name that the directory has. -/
  | missing
  deriving Repr, DecidableEq

/-- To the object that a name of `directory` stands for, or to the link that it is. -/
def reach? (fs : FileSystem) (directory next : Nat) : Option Step :=
  match fs.object? next with
  | some (.link target) => (fs.start? directory target).map fun start => .link start target
  | _ => some (.object next)

/-- One step along a path. -/
def step? (fs : FileSystem) (number : Nat) (part : Text) : Option Step :=
  match fs.object? number with
  | some (.directory parent entries) =>
    if part == [] || part == Files.here then some (.object number)
    else if part == Files.up then some (.object parent)
    else
      match entries.find? part with
      | none => some .missing
      | some next => fs.reach? number next
  | _ => none

/-- Where parts lead from an object, if `follow` says where the parts behind a link lead. -/
def walkWith (fs : FileSystem) (follow : Nat → List Text → Option Location) :
    Nat → List Text → Option Location
  | number, [] => some (.found number)
  | number, part :: rest =>
    match fs.step? number part with
    | some (.object next) => fs.walkWith follow next rest
    | some (.link start target) => follow start (Files.parts target ++ rest)
    | some .missing => if rest.isEmpty then some (.missing number part) else none
    | none => none

/-- Where parts lead from an object, over at most that many links. -/
def walk (fs : FileSystem) : (links : Nat) → Nat → List Text → Option Location
  | 0 => fs.walkWith fun _ _ => none
  | links + 1 => fs.walkWith (fs.walk links)

/-- How many links are followed. -/
def linkLimit : Nat := 40

/-- Where a path leads. -/
def location? (fs : FileSystem) (path : Text) : Option Location :=
  (fs.start? fs.current path).bind fun start => fs.walk linkLimit start (Files.parts path)

/-! ## Reading -/

/-- The content of the file at a location. -/
def content? (fs : FileSystem) : Location → Option Content
  | .found number =>
    match fs.object? number with
    | some (.file c) => some c
    | _ => none
  | .missing _ _ => none

/-- The content of the file that a path leads to. -/
def at? (fs : FileSystem) (path : Text) : Option Content := (fs.location? path).bind fs.content?

/-- The text of the file that a path leads to. -/
def read (fs : FileSystem) (path : Text) : Option Text :=
  match fs.at? path with
  | some (.text t) => some t
  | _ => none

/-! ## Writing -/

/-- Another object in place of one. -/
def replace (fs : FileSystem) (number : Nat) (o : Object) : FileSystem :=
  { fs with objects := fs.objects.set number o }

/-- One more object, with the next number. -/
def extend (fs : FileSystem) (o : Object) : FileSystem := { fs with objects := fs.objects ++ [o] }

/-- A new object under a name of a directory. -/
def append (fs : FileSystem) (directory : Nat) (name : Text) (o : Object) : Option FileSystem :=
  match fs.object? directory with
  | some (.directory parent entries) =>
    let listing := .directory parent (entries.insert name fs.objects.length)
    some ((fs.replace directory listing).extend o)
  | _ => none

/-- The content goes to the location, in a new file if none is there. -/
def put (fs : FileSystem) (c : Content) : Location → Option FileSystem
  | .found number =>
    match fs.object? number with
    | some (.file _) => some (fs.replace number (.file c))
    | _ => none
  | .missing directory name => fs.append directory name (.file c)

/-- The file system after `t` has been written to where the path leads. -/
def write (fs : FileSystem) (path t : Text) : Option FileSystem :=
  (fs.location? path).bind (fs.put (.text t))

/-! ### Objects after a change -/

/-- An object that is replaced changes under its OWN number and under no other. -/
theorem object?_replace {fs : FileSystem} {number : Nat} {old : Object} (h : fs.object? number = some old)
    (o : Object) (m : Nat) :
    (fs.replace number o).object? m = if number = m then some o else fs.object? m := by
  rw [object?, replace, List.getElem?_set, if_pos (List.getElem?_eq_some_iff.1 h).1]
  rfl

/-- A new object has the next number, and the others keep theirs. -/
theorem object?_extend (fs : FileSystem) (o : Object) (m : Nat) :
    (fs.extend o).object? m = if m = fs.objects.length then some o else fs.object? m := by
  rw [object?, extend, List.getElem?_append]
  split
  · rename_i hlt
    rw [if_neg (Nat.ne_of_lt hlt)]
    rfl
  · rename_i hge
    split
    · rename_i heq
      rw [heq, Nat.sub_self]
      rfl
    · rename_i hne
      rw [List.getElem?_eq_none (by rw [List.length_singleton]; omega), object?,
        List.getElem?_eq_none (Nat.le_of_not_lt hge)]

/-- A new object is listed under its name, and everything else stays. -/
theorem object?_append {fs : FileSystem} {directory parent : Nat} {entries : OrderedMap Nat}
    (h : fs.object? directory = some (.directory parent entries)) (name : Text) (o : Object) :
    ∃ fs', fs.append directory name o = some fs' ∧ fs'.root = fs.root ∧ fs'.current = fs.current ∧
      ∀ m, fs'.object? m =
        if m = fs.objects.length then some o
        else if directory = m then some (.directory parent (entries.insert name fs.objects.length))
        else fs.object? m := by
  refine ⟨(fs.replace directory (.directory parent (entries.insert name fs.objects.length))).extend o,
    by rw [append, h], rfl, rfl, fun m => ?_⟩
  rw [object?_extend, object?_replace h]
  simp only [replace, List.length_set]

/-! ## Files in a directory -/

/-- A root directory and, in it, the working directory, which is empty. -/
def empty : FileSystem :=
  ⟨[.directory 0 ⟨[("work".toList, 1)]⟩, .directory 0 OrderedMap.empty], 0, 1⟩

/-- One more file at a place below `directory`; the directories on the way are made if they are
    missing. -/
def add (fs : FileSystem) (c : Content) (directory : Nat) : List Text → Option FileSystem
  | [] => none
  | [name] => fs.append directory name (.file c)
  | name :: rest =>
    match fs.object? directory with
    | some (.directory _ entries) =>
      match entries.find? name with
      | some next => fs.add c next rest
      | none =>
        (fs.append directory name (.directory directory OrderedMap.empty)).bind fun fs' =>
          fs'.add c fs.objects.length rest
    | _ => none

/-- These files in a working directory that is otherwise empty. -/
def ofFiles (files : Files) : FileSystem :=
  files.entries.foldl (fun fs e => (fs.add e.2 fs.current e.1).getD fs) empty

/-- The files at an object and below it, down to a depth; the object stands at `place`. -/
def filesAt (fs : FileSystem) : (depth : Nat) → List Text → Nat → List (List Text × Content)
  | 0, _, _ => []
  | depth + 1, place, number =>
    match fs.object? number with
    | some (.file c) => [(place, c)]
    | some (.directory _ entries) =>
      entries.entries.flatMap fun e => fs.filesAt depth (place ++ [e.1]) e.2
    | _ => []

/-- The files in the working directory and below it. -/
def files (fs : FileSystem) : Files := ⟨fs.filesAt (fs.objects.length + 1) [] fs.current⟩

end FileSystem

/-! ## Running the program -/

/-- A directory `d` that is empty, a file `k` in the root, and a link `l` from one to the other. -/
def FileSystem.linked : FileSystem :=
  ⟨[.directory 0 ⟨[("d".toList, 1), ("k".toList, 2), ("l".toList, 3)]⟩,
    .directory 0 OrderedMap.empty, .file (.text []), .link "d/../k".toList], 0, 1⟩

example : FileSystem.linked.location? "/l".toList = some (.found 2) := by decide
example : FileSystem.linked.location? "k".toList = some (.missing 1 "k".toList) := by decide
example : FileSystem.linked.location? "../k/".toList = none := by decide
example : (FileSystem.ofFiles ⟨[([['d'], ['k']], .text [])]⟩).read "./d/../d/k".toList = some [] := by
  decide
example : ((FileSystem.ofFiles ⟨[([['d'], ['k']], .text [])]⟩).write "d".toList []).isNone := by decide
example : ((FileSystem.ofFiles ⟨[]⟩).write "no/k".toList []).isNone := by decide

end Minicore
