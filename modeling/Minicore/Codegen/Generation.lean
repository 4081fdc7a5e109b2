/-
  GENERATION — the steps that produce code.

  Problem: a step numbers new places, contributes code, and may fail; what it numbered and contributed
  BEFORE it failed stays.

  1. **Program** — a `Gen α` is a function of the counters; its `Outcome` has a result or a fault, the
     counters after the step, and the emission of the step — the last two in either case.  Steps are
     chained as a monad: after a fault nothing more happens, and emissions are put one behind another.

  2. **Specification** — a step never LOOKS at what was emitted before it, so what it emits depends on
     the counters alone, and what was gathered before is never lost.
-/
import Minicore.Codegen.Streams
import Minicore.Tree.Node

namespace Minicore

/-! ## Faults -/

/-- What a position in the tree asks for. -/
inductive Expectation where
  | program
  | statement
  | expression
  | block
  | identifier
  deriving Repr, DecidableEq

/-- The word for it. -/
def Expectation.name : Expectation → Text
  | .program => "program".toList
  | .statement => "statement".toList
  | .expression => "expression".toList
  | .block => "block".toList
  | .identifier => "identifier".toList

/-- Why a tree cannot be turned into code. -/
inductive TreeFault where
  /-- A node of the wrong kind. -/
  | unexpected (expected : Expectation) (found : Kind)
  /-- A name that is no identifier. -/
  | invalidIdentifier (name : Text)
  /-- A number that is no decimal 16-bit literal. -/
  | invalidLiteral (text : Text)
  deriving Repr, DecidableEq

/-- The wording of a fault. -/
def TreeFault.message : TreeFault → Text
  | .unexpected expected found =>
    "Malformed node: expected ".toList ++ expected.name ++ ", found `".toList ++ found.name ++ ['`']
  | .invalidIdentifier name => "Malformed node: invalid identifier `".toList ++ name ++ ['`']
  | .invalidLiteral text => "Invalid literal: `".toList ++ text ++ ['`']

/-! ## Steps -/

/-- What a step comes to. -/
structure Outcome (α : Type) where
  result : Except TreeFault α
  names : Names
  emission : Emission

/-- A step: what it comes to, given the counters. -/
def Gen (α : Type) : Type := Names → Outcome α

namespace Gen

/-- The step that only has a result. -/
def pure {α : Type} (a : α) : Gen α := fun names => ⟨.ok a, names, Emission.empty⟩

/-- One step, then the one that its result asks for; after a fault there is no second step. -/
def bind {α β : Type} (m : Gen α) (f : α → Gen β) : Gen β := fun names =>
  let first := m names
  match first.result with
  | .error e => ⟨.error e, first.names, first.emission⟩
  | .ok a =>
    let second := f a first.names
    ⟨second.result, second.names, first.emission ++ second.emission⟩

instance : Monad Gen where
  pure := Gen.pure
  bind := Gen.bind

/-- The step that fails. -/
def fail {α : Type} (e : TreeFault) : Gen α := fun names => ⟨.error e, names, Emission.empty⟩

/-- The step that contributes. -/
def emit (e : Emission) : Gen Unit := fun names => ⟨.ok (), names, e⟩

/-- The step that fails on a node of the wrong kind. -/
def unexpected {α : Type} (expected : Expectation) (found : Node) : Gen α :=
  fail (.unexpected expected found.kind)

/-- The step that contributes body statements. -/
def body (ss : List Statement) : Gen Unit := emit ⟨ss, [], []⟩

/-- The step that contributes a declaration. -/
def declare (d : Declaration) : Gen Unit := emit ⟨[], [], [d]⟩

/-- A new label number. -/
def label : Gen Nat := fun names => ⟨.ok names.nextLabel.1, names.nextLabel.2, Emission.empty⟩

/-- A new temporary whose first value is `v`. -/
def temp (v : UInt16) : Gen Cell := fun names =>
  ⟨.ok names.nextTemp.1, names.nextTemp.2, ⟨[], [(names.temps + 1, v)], []⟩⟩

/-- The name, if it is an identifier. -/
def identifier (name : Text) : Gen Text :=
  if name.isIdentifier then pure name else fail (.invalidIdentifier name)

/-- The value of a decimal literal, blanks around it ignored. -/
def literal (t : Text) : Gen UInt16 :=
  match Numeral.readWord 10 t.trim with
  | .ok v => pure v
  | .error _ => fail (.invalidLiteral t)

@[simp] theorem pure_apply {α : Type} (a : α) (names : Names) :
    (Pure.pure a : Gen α) names = ⟨.ok a, names, Emission.empty⟩ := rfl

theorem bind_apply {α β : Type} (m : Gen α) (f : α → Gen β) (names : Names) :
    (m >>= f) names =
      match (m names).result with
      | .error e => ⟨.error e, (m names).names, (m names).emission⟩
      | .ok a => ⟨(f a (m names).names).result, (f a (m names).names).names,
          (m names).emission ++ (f a (m names).names).emission⟩ := rfl

end Gen

/-! ## The generator -/

/-- What has been gathered, and the counters. -/
structure Generator where
  streams : Streams
  names : Names
  deriving Repr

namespace Generator

/-- A generator with nothing gathered that goes on numbering behind `names`. -/
def withNames (names : Names) : Generator := ⟨Streams.empty, names⟩

/-- A generator at the start. -/
def new : Generator := withNames Names.fresh

/-- The result of a step, and the generator after it. -/
def run {α : Type} (g : Generator) (step : Gen α) : Except TreeFault α × Generator :=
  let o := step g.names
  (o.result, ⟨g.streams.extend o.emission, o.names⟩)

end Generator

end Minicore
