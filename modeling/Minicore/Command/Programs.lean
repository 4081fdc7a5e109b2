/-
  The two PROGRAMS — the assembler and the compiler as they are called.

  Problem: read a file, run the stages, tell the user how far they got, and write the image — which is
  written LAST, so that a run that fails in any stage leaves the output alone.

  1. **Program** — `assemblerSession` and `compilerSession` are the two runs; `sessionWith` reads the command
     line and starts the right one.  Each stage announces itself before it begins.  How the compiler
     reads documents is a parameter; `session` reads them with `Value.ofText?`.

  2. **Exit codes** — 0 when the image is written or the help or the version was asked for, 1 after a fault
     has been reported, 2 for a command line that makes no sense.  The wording of the help and of what
     is said about a senseless command line is the argument parser's, and neither is printed here.
-/
import Minicore.Assembly.Listing
import Minicore.Build
import Minicore.Command.Arguments
import Minicore.Command.Path
import Minicore.Command.Session

namespace Minicore

/-! ## Common steps -/

/-- Where the image goes. -/
def Options.target (o : Options) : Text :=
  match o.output with
  | some path => path
  | none => Path.withExtension o.input "mif".toList

/-- Reports a fault and ends the run. -/
def Session.failWith (report : Text) : Session := .print report (.exit 1)

/-- Announces a file that is read. -/
def fromLine (path : Text) : Text := "  < ".toList ++ path

/-- Announces a file that is written. -/
def toLine (path : Text) : Text := "  > ".toList ++ path

/-- The word that opens a warning. -/
def warningWord : Text := Terminal.bold .yellow "warning".toList

/-- Writes the image, then prints the listing if it is asked for. -/
def Session.finish (o : Options) (a : Assembly) : Session :=
  .line (toLine o.target) <|
    .write o.target a.image fun
      | false => failWith (Fault.report (.ofCause (.unwritableFile o.target)) o.input)
      | true => if o.dump then .print (Listing.text o.input a) (.exit 0) else .exit 0

/-! ## The assembler -/

/-- A warning with the line it is about. -/
def warningReport (file : Text) (l : Layout) (w : Warning) : Text :=
  let quoted := (l.lines[w.index]?.map SourceLine.text).getD []
  warningWord ++ ": ".toList ++ w.doubt.message ++ '\n' :: Fault.pointer file (w.index + 1) ++
    Fault.quotation (w.index + 1) quoted

/-- A run of the assembler. -/
def assemblerSession (o : Options) : Session :=
  .line "MIF Assembler".toList <|
  .line "1. Read File".toList <|
  .line (fromLine o.input) <|
  .read o.input fun
    | none => .failWith (Fault.report (.ofCause (.unreadableFile o.input)) o.input)
    | some source =>
      .line "2. Resolve Labels & Encode".toList <|
      match assemble source with
      | .error e => .failWith (e.report o.input)
      | .ok a =>
        .printAll (a.layout.warnings.map (warningReport o.input a.layout)) <|
        .line ("  ".toList ++ Numeral.decimal a.layout.size ++ " words, ".toList ++
          Numeral.decimal a.layout.map.size ++ " symbols".toList) <|
        .line "3. Write Image".toList <|
        .finish o a

/-! ## The compiler -/

/-- The name under which generated code is reported. -/
def generatedName : Text := "<generated>".toList

/-- How much has been generated. -/
def Streams.summary (s : Streams) : Text :=
  "  ".toList ++ Numeral.decimal s.body.length ++ " lines, ".toList ++
    Numeral.decimal s.temps.length ++ " temporaries, ".toList ++
    Numeral.decimal s.tables.size ++ " tables, ".toList ++
    Numeral.decimal s.vars.size ++ " variables".toList

/-- A warning about generated code. -/
def generatedWarning (w : Warning) : Text :=
  warningWord ++ ": line ".toList ++ Numeral.decimal (w.index + 1) ++ ": ".toList ++
    w.doubt.message ++ ['\n']

/-- The stages behind the generated code. -/
def assembleGenerated (o : Options) (code : Text) : Session :=
  .line "3. Assemble".toList <|
  match assemble code with
  | .error e => .failWith (e.report generatedName)
  | .ok a =>
    .printAll (a.layout.warnings.map generatedWarning) <|
    .line ("  ".toList ++ Numeral.decimal a.layout.size ++ " words".toList) <|
    .line "4. Write Image".toList <|
    .finish o a

/-- A run of the compiler. -/
def compilerSession (read : DocumentReader) (o : Options) : Session :=
  .line "Mini Compiler".toList <|
  .line "1. Read AST".toList <|
  .line (fromLine o.input) <|
  .read o.input fun
    | none => .failWith (Fault.errorLine (Cause.message (.unreadableFile o.input)))
    | some source =>
      match Node.readWith read source with
      | none => .failWith (Fault.errorLine "Cannot read AST: no tree".toList)
      | some tree =>
        .line "2. Generate Code".toList <|
        match Streams.ofProgram tree with
        | .error e => .failWith (Fault.errorLine e.message)
        | .ok streams =>
          .line streams.summary <|
          if o.asm then
            let path := Path.withExtension o.target "asm".toList
            .line (toLine path) <|
            .write path streams.text fun
              | false => .failWith (Fault.errorLine (Cause.message (.unwritableFile path)))
              | true => assembleGenerated o streams.text
          else assembleGenerated o streams.text

/-! ## The command line -/

/-- What a program does when it is called with these arguments. -/
def sessionWith (read : DocumentReader) (tool : Tool) (args : List Text) : Session :=
  match Arguments.read tool args with
  | .misuse => .exit 2
  | .help => .exit 0
  | .version => .line (tool.name ++ ' ' :: Tool.version) (.exit 0)
  | .run o =>
    match tool with
    | .assembler => assemblerSession o
    | .compiler => compilerSession read o

/-- What a program does that reads YAML and JSON. -/
def session (tool : Tool) (args : List Text) : Session := sessionWith Value.ofText? tool args

end Minicore
