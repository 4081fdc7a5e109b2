/-
  ARGUMENTS — what a command line asks for.

  Problem: both programs take one input, an optional output and some flags, in any order.

  1. **Program** — the arguments are taken one by one from the left.  `-o` and `--output` take a value:
     attached (`-oX`, `-o=X`, `--output=X`) or as the next argument, which then must not look like an
     option.  Short flags combine (`-ad`, `-do X`).  Behind `--` everything is an input.

  2. **Order of faults** — the first argument that is wrong ends the reading, and so does a flag that asks
     for the help or the version.  Only a command line that is right up to its end can still lack its
     input or a value.
-/
import Minicore.Text.Blank

namespace Minicore

/-- The two programs. -/
inductive Tool where
  | assembler
  | compiler
  deriving Repr, DecidableEq

/-- The name of a program. -/
def Tool.name : Tool → Text
  | .assembler => "mifasm".toList
  | .compiler => "mcc".toList

/-- The version of both. -/
def Tool.version : Text := "0.1.0".toList

/-- What a run is asked to do. -/
structure Options where
  input : Text
  output : Option Text
  /-- Also write the generated assembly. -/
  asm : Bool
  /-- Also print the listing. -/
  dump : Bool
  deriving Repr, DecidableEq

/-- What a command line asks for. -/
inductive Request where
  | run (options : Options)
  | help
  | version
  | misuse
  deriving Repr, DecidableEq

namespace Arguments

/-- What has been given so far. -/
structure Given where
  input : Option Text
  output : Option Text
  asm : Bool
  dump : Bool
  /-- The next argument is the output. -/
  awaiting : Bool
  /-- Everything that follows is an input. -/
  inputsOnly : Bool
  deriving Repr, DecidableEq

/-- Nothing has been given. -/
def Given.none : Given := ⟨.none, .none, false, false, false, false⟩

/-- How far the arguments have been taken. -/
inductive Progress where
  | going (given : Given)
  | help
  | version
  | misuse
  deriving Repr, DecidableEq

/-- An input; there is room for one. -/
def takeInput (g : Given) (t : Text) : Progress :=
  match g.input with
  | .none => .going { g with input := some t, awaiting := false }
  | some _ => .misuse

/-- The output; there is room for one. -/
def takeOutput (g : Given) (t : Text) : Progress :=
  match g.output with
  | .none => .going { g with output := some t, awaiting := false }
  | some _ => .misuse

/-- The flag for the listing, once. -/
def takeDump (g : Given) : Progress :=
  if g.dump then .misuse else .going { g with dump := true, awaiting := false }

/-- The flag for the assembly text, once, and only of the compiler. -/
def takeAsm (tool : Tool) (g : Given) : Progress :=
  if g.asm || tool != .compiler then .misuse
  else .going { g with asm := true, awaiting := false }

/-- The next argument is to be the output. -/
def await (g : Given) : Progress := .going { g with awaiting := true }

/-- Short options in one argument; the first that takes a value takes the rest. -/
def takeShort (tool : Tool) (g : Given) : Text → Progress
  | [] => .going g
  | c :: rest =>
    if c == 'h' then .help
    else if c == 'V' then .version
    else if c == 'o' then
      match rest with
      | [] => await g
      | '=' :: v => takeOutput g v
      | v => takeOutput g v
    else
      match if c == 'd' then takeDump g else if c == 'a' then takeAsm tool g else .misuse with
      | .going g => takeShort tool g rest
      | other => other

/-- A long option: its name, and its value if one is attached. -/
def takeLong (tool : Tool) (g : Given) (t : Text) : Progress :=
  let name := t.takeWhile (· != '=')
  let attached := t.dropWhile (· != '=')
  match attached with
  | [] =>
    if name == "output".toList then await g
    else if name == "dump".toList then takeDump g
    else if name == "asm".toList then takeAsm tool g
    else if name == "help".toList then .help
    else if name == "version".toList then .version
    else .misuse
  | _ :: v => if name == "output".toList then takeOutput g v else .misuse

/-- One argument. -/
def take (tool : Tool) (g : Given) (t : Text) : Progress :=
  if g.inputsOnly then (if g.awaiting then .misuse else takeInput g t)
  else
    match t with
    | '-' :: c :: rest =>
      if g.awaiting then .misuse
      else if c == '-' then
        if rest.isEmpty then .going { g with inputsOnly := true }
        else takeLong tool g rest
      else takeShort tool g (c :: rest)
    | _ => if g.awaiting then takeOutput g t else takeInput g t

/-- The arguments, one by one. -/
def takeAll (tool : Tool) : Given → List Text → Progress
  | g, [] => .going g
  | g, t :: rest =>
    match take tool g t with
    | .going g => takeAll tool g rest
    | other => other

/-- What a command line asks for. -/
def read (tool : Tool) (args : List Text) : Request :=
  match takeAll tool Given.none args with
  | .help => .help
  | .version => .version
  | .misuse => .misuse
  | .going g =>
    match g.input with
    | .none => .misuse
    | some input => if g.awaiting then .misuse else .run ⟨input, g.output, g.asm, g.dump⟩

end Arguments

example : Arguments.read .compiler ["-ado".toList, "q".toList, "p".toList] =
    .run ⟨"p".toList, some "q".toList, true, true⟩ := by decide
example : Arguments.read .assembler ["-a".toList, "p".toList] = .misuse := by decide
example : Arguments.read .assembler ["-o".toList, "-h".toList] = .misuse := by decide
example : Arguments.read .assembler ["-dh".toList, "-x".toList] = .help := by decide
example : Arguments.read .assembler ["p".toList, "-o=".toList] =
    .run ⟨"p".toList, some [], false, false⟩ := by decide
example : Arguments.read .assembler ["--".toList, "-d".toList] =
    .run ⟨"-d".toList, none, false, false⟩ := by decide

end Minicore
