/-
  BUILDING — from a tree to an image.

  Problem: three stages follow one another: the tree becomes assembly text, the text is assembled, and
  the assembly is written as an image.  Each stage has its own faults.

  1. **Program** — `Node.ofText?` reads a tree; `compile`, `link` and `build` run one, two and three stages.

  2. **Documents** — which texts are documents, and of which values, is said by a `DocumentReader`.
     `Value.ofText?` is one; nothing behind it depends on which one it is (`Node.readWith`).
-/
import Minicore.Assembly.Image
import Minicore.Codegen.Rules
import Minicore.Tree.Reading
import Minicore.Yaml.Document

namespace Minicore

/-- Why nothing was built. -/
inductive BuildFault where
  /-- The tree cannot be turned into code. -/
  | tree (fault : TreeFault)
  /-- The code cannot be assembled. -/
  | assembly (fault : Fault)
  deriving Repr, DecidableEq

/-- The value that a text denotes, if it is a document. -/
abbrev DocumentReader := Text → Option Value

/-- The tree that a document presents. -/
def Node.readWith (read : DocumentReader) (t : Text) : Option Node := (read t).bind Node.ofValue?

/-- The tree that a YAML or JSON text presents. -/
def Node.ofText? (t : Text) : Option Node := Node.readWith Value.ofText? t

/-- The assembly text of a program. -/
def compile (n : Node) : Except TreeFault Text := (Streams.ofProgram n).map Streams.text

/-- The assembled program. -/
def link (n : Node) : Except BuildFault Assembly :=
  match compile n with
  | .error e => .error (.tree e)
  | .ok t =>
    match assemble t with
    | .error e => .error (.assembly e)
    | .ok a => .ok a

/-- The image of a program. -/
def build (n : Node) : Except BuildFault Text := (link n).map Assembly.image

/-! ## Running the program -/

example : compile (.program [.wait "1000".toList]) = .ok
    "    WAIT #0x3E8\nhalt\n    B halt\n\nconst_1 DCB 0x1\nconst_0 DCB 0x0\n".toList := rfl
example : compile (.block []) = .error (.unexpected .program .block) := rfl

end Minicore
