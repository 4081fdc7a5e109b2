/-
  ACCEPTANCE — which trees have code, and what is said about the others.

  Problem: a tree comes as it comes.  The generator finds out what is wrong with it on its way, one check
  here and one there, and stops at the first.  A front end wants to know beforehand which trees go
  through, and which of several mistakes it will hear about.

  1. **Grammar** — `Grammar.Program`: a program of statements whose parts are what their places ask for,
     with identifiers for the names and 16-bit decimals for the literals.  The name of a table that is
     assigned to may be anything.

  2. **Offences** — `Node.offences` lists ALL that is wrong with a tree, in the order of generation: a
     node in the wrong place counts once, whatever is in it.

  3. **Generation** — a tree without offences is one of the grammar (`offences_eq_nil_iff`); the
     generator accepts these and no others, and otherwise reports the FIRST offence
     (`outcome_of_generation`).  `Gen.Reports os Q m`, the claim of one step, is closed under chains,
     because a chain ends with its first fault.
-/
import Minicore.Codegen.Rules
import Minicore.Proofs.Text.Notation
import Minicore.Tree.Footprint

namespace Minicore

/-! ## The grammar -/

namespace Grammar

/-- A decimal number of 16 bits, blanks around it ignored. -/
def Literal (t : Text) : Prop := ∃ n ≤ maxWord, Numeral.Writes 10 t.trim n

/-- Identifiers, literals, and operators on two expressions. -/
inductive Expression : Node → Prop
  | ident {x : Text} : x.isIdentifier = true → Expression (.ident x)
  | intLit {t : Text} : Literal t → Expression (.intLit t)
  | binary {op : Operator} {left right : Node} :
      Expression left → Expression right → Expression (.binary op left right)

/-- What may stand in a list of statements.  Branches and loop bodies are blocks; the target of an
    assignment is a name. -/
inductive Statement : Node → Prop
  | block {ss : List Node} : (∀ s ∈ ss, Statement s) → Statement (.block ss)
  | scalarInit {x : Text} {value : Node} :
      x.isIdentifier = true → Expression value → Statement (.scalarInit x value)
  | tableInit {x size default : Text} :
      x.isIdentifier = true → Literal size → Literal default → Statement (.tableInit x size default)
  | wait {t : Text} : Literal t → Statement (.wait t)
  | scalarAssign {x : Text} {value : Node} :
      x.isIdentifier = true → Expression value → Statement (.scalarAssign (.ident x) value)
  | tableAssign {x : Text} {index value : Node} :
      Expression index → Expression value → Statement (.tableAssign (.ident x) index value)
  | ifThen {condition : Node} {ss : List Node} :
      Expression condition → Statement (.block ss) →
      Statement (.ifElse condition (.block ss) none)
  | ifElse {condition : Node} {ss ts : List Node} :
      Expression condition → Statement (.block ss) → Statement (.block ts) →
      Statement (.ifElse condition (.block ss) (some (.block ts)))
  | whileLoop {condition : Node} {ss : List Node} :
      Expression condition → Statement (.block ss) → Statement (.whileLoop condition (.block ss))
  | exprStmt {expr : Node} : Expression expr → Statement (.exprStmt expr)

/-- A program of statements. -/
def Program (n : Node) : Prop := ∃ ss, n = .program ss ∧ ∀ s ∈ ss, Statement s

end Grammar

/-! ## Offences -/

namespace Node

/-- A name that is no identifier. -/
def nameOffences (x : Text) : List TreeFault :=
  if x.isIdentifier then [] else [.invalidIdentifier x]

/-- A text that is no literal. -/
def literalOffences (t : Text) : List TreeFault :=
  if (word? t).isSome then [] else [.invalidLiteral t]

/-- What is wrong with the target of an assignment. -/
def targetOffences : Node → List TreeFault
  | .ident _ => []
  | other => [.unexpected .identifier other.kind]

/-- What is wrong with a node in the place of an expression. -/
def expressionOffences : Node → List TreeFault
  | .ident x => nameOffences x
  | .intLit t => literalOffences t
  | .binary _ left right => left.expressionOffences ++ right.expressionOffences
  | other => [.unexpected .expression other.kind]

mutual

/-- What is wrong with a node in the place of a statement. -/
def statementOffences : Node → List TreeFault
  | .block ss => offencesOf ss
  | .scalarInit x value => value.expressionOffences ++ nameOffences x
  | .tableInit x size default => nameOffences x ++ (literalOffences size ++ literalOffences default)
  | .wait t => literalOffences t
  | .scalarAssign target value =>
    target.targetOffences ++ (value.expressionOffences ++ target.ident?.elim [] nameOffences)
  | .tableAssign target index value =>
    target.targetOffences ++ (index.expressionOffences ++ value.expressionOffences)
  | .ifElse condition consequence none =>
    condition.expressionOffences ++ consequence.blockOffences
  | .ifElse condition consequence (some alternative) =>
    condition.expressionOffences ++ (consequence.blockOffences ++ alternative.blockOffences)
  | .whileLoop condition body => condition.expressionOffences ++ body.blockOffences
  | .exprStmt expr => expr.expressionOffences
  | other => [.unexpected .statement other.kind]

/-- What is wrong with a node in the place of a block. -/
def blockOffences : Node → List TreeFault
  | .block ss => offencesOf ss
  | other => [.unexpected .block other.kind]

/-- What is wrong with the nodes of a list of statements. -/
def offencesOf : List Node → List TreeFault
  | [] => []
  | s :: rest => s.statementOffences ++ offencesOf rest

end

/-- What is wrong with a tree. -/
def offences : Node → List TreeFault
  | .program ss => offencesOf ss
  | other => [.unexpected .program other.kind]

/-- A conditional, whether or not it has an alternative. -/
theorem statementOffences_ifElse (condition consequence : Node) (alternative : Option Node) :
    (ifElse condition consequence alternative).statementOffences = condition.expressionOffences ++
      (consequence.blockOffences ++ alternative.elim [] blockOffences) := by
  cases alternative with
  | none => rw [statementOffences, Option.elim_none, List.append_nil]
  | some other => rw [statementOffences, Option.elim_some]

/-- Four mistakes: the target comes before the value, the value before its name. -/
example : offences (.program [.scalarAssign (.intLit ['1']) (.ident ['?']),
    .scalarInit ['!'] (.intLit ['x'])]) =
    [.unexpected .identifier .intLit, .invalidIdentifier ['?'], .invalidLiteral ['x'],
     .invalidIdentifier ['!']] := by decide

/-! ## No offences -/

theorem nameOffences_eq_nil_iff {x : Text} : nameOffences x = [] ↔ x.isIdentifier = true := by
  unfold nameOffences
  split <;> simp_all

/-- A word is what a decimal number of 16 bits comes to. -/
theorem isSome_word?_iff {t : Text} : (word? t).isSome = true ↔ Grammar.Literal t := by
  have hten : 0 < 10 := by decide
  constructor
  · intro h
    obtain ⟨w, hw⟩ := Option.isSome_iff_exists.1 h
    have hread : Numeral.readWord 10 t.trim = .ok w := by
      unfold word? at hw
      cases hr : Numeral.readWord 10 t.trim with
      | error fault => rw [hr] at hw; cases hw
      | ok v => rw [hr] at hw; cases hw; rfl
    exact ⟨w.toNat, Nat.le_of_lt_succ w.toNat_lt, (Numeral.readWord_eq_ok_iff hten).1 hread⟩
  · rintro ⟨n, hn, hwrites⟩
    rw [← toNat_ofNat_of_le hn] at hwrites
    rw [word?, (Numeral.readWord_eq_ok_iff hten).2 hwrites]
    rfl

theorem literalOffences_eq_nil_iff {t : Text} : literalOffences t = [] ↔ Grammar.Literal t := by
  rw [← isSome_word?_iff]
  unfold literalOffences
  split <;> simp_all

theorem targetOffences_eq_nil_iff {n : Node} : n.targetOffences = [] ↔ ∃ x, n = .ident x := by
  cases n <;> simp [targetOffences]

theorem expressionOffences_eq_nil_iff : ∀ {n : Node},
    n.expressionOffences = [] ↔ Grammar.Expression n
  | .ident x => nameOffences_eq_nil_iff.trans ⟨.ident, fun | .ident h => h⟩
  | .intLit t => literalOffences_eq_nil_iff.trans ⟨.intLit, fun | .intLit h => h⟩
  | .binary op left right => by
    rw [expressionOffences, List.append_eq_nil_iff, expressionOffences_eq_nil_iff,
      expressionOffences_eq_nil_iff]
    exact ⟨fun h => .binary h.1 h.2, fun | .binary hl hr => ⟨hl, hr⟩⟩
  | .program _ => ⟨nofun, nofun⟩
  | .block _ => ⟨nofun, nofun⟩
  | .scalarInit _ _ => ⟨nofun, nofun⟩
  | .tableInit _ _ _ => ⟨nofun, nofun⟩
  | .wait _ => ⟨nofun, nofun⟩
  | .scalarAssign _ _ => ⟨nofun, nofun⟩
  | .tableAssign _ _ _ => ⟨nofun, nofun⟩
  | .ifElse _ _ _ => ⟨nofun, nofun⟩
  | .whileLoop _ _ => ⟨nofun, nofun⟩
  | .exprStmt _ => ⟨nofun, nofun⟩

mutual

theorem statementOffences_eq_nil_iff : ∀ {n : Node},
    n.statementOffences = [] ↔ Grammar.Statement n
  | .block ss => by
    rw [statementOffences, offencesOf_eq_nil_iff]
    exact ⟨.block, fun | .block h => h⟩
  | .scalarInit x value => by
    rw [statementOffences, List.append_eq_nil_iff, expressionOffences_eq_nil_iff,
      nameOffences_eq_nil_iff]
    exact ⟨fun h => .scalarInit h.2 h.1, fun | .scalarInit hx hv => ⟨hv, hx⟩⟩
  | .tableInit x size default => by
    rw [statementOffences, List.append_eq_nil_iff, List.append_eq_nil_iff, nameOffences_eq_nil_iff,
      literalOffences_eq_nil_iff, literalOffences_eq_nil_iff]
    exact ⟨fun h => .tableInit h.1 h.2.1 h.2.2, fun | .tableInit hx hs hd => ⟨hx, hs, hd⟩⟩
  | .wait t => by
    rw [statementOffences, literalOffences_eq_nil_iff]
    exact ⟨.wait, fun | .wait h => h⟩
  | .scalarAssign target value => by
    rw [statementOffences, List.append_eq_nil_iff, List.append_eq_nil_iff, targetOffences_eq_nil_iff,
      expressionOffences_eq_nil_iff]
    constructor
    · rintro ⟨⟨x, rfl⟩, hv, hx⟩
      exact .scalarAssign (nameOffences_eq_nil_iff.1 hx) hv
    · rintro (_ | _ | _ | _ | ⟨hx, hv⟩)
      exact ⟨⟨_, rfl⟩, hv, nameOffences_eq_nil_iff.2 hx⟩
  | .tableAssign target index value => by
    rw [statementOffences, List.append_eq_nil_iff, List.append_eq_nil_iff, targetOffences_eq_nil_iff,
      expressionOffences_eq_nil_iff, expressionOffences_eq_nil_iff]
    constructor
    · rintro ⟨⟨x, rfl⟩, hi, hv⟩
      exact .tableAssign hi hv
    · intro h
      cases h with
      | tableAssign hi hv => exact ⟨⟨_, rfl⟩, hi, hv⟩
  | .ifElse condition consequence none => by
    rw [statementOffences, List.append_eq_nil_iff, expressionOffences_eq_nil_iff,
      blockOffences_eq_nil_iff]
    constructor
    · rintro ⟨hc, ss, rfl, hss⟩
      exact .ifThen hc (.block hss)
    · intro h
      cases h with
      | ifThen hc hss => cases hss with | block hss => exact ⟨hc, _, rfl, hss⟩
  | .ifElse condition consequence (some alternative) => by
    rw [statementOffences, List.append_eq_nil_iff, List.append_eq_nil_iff,
      expressionOffences_eq_nil_iff, blockOffences_eq_nil_iff, blockOffences_eq_nil_iff]
    constructor
    · rintro ⟨hc, ⟨ss, rfl, hss⟩, ts, rfl, hts⟩
      exact .ifElse hc (.block hss) (.block hts)
    · intro h
      cases h with
      | ifElse hc hss hts =>
        cases hss with | block hss =>
        cases hts with | block hts => exact ⟨hc, ⟨_, rfl, hss⟩, _, rfl, hts⟩
  | .whileLoop condition body => by
    rw [statementOffences, List.append_eq_nil_iff, expressionOffences_eq_nil_iff,
      blockOffences_eq_nil_iff]
    constructor
    · rintro ⟨hc, ss, rfl, hss⟩
      exact .whileLoop hc (.block hss)
    · intro h
      cases h with
      | whileLoop hc hss => cases hss with | block hss => exact ⟨hc, _, rfl, hss⟩
  | .exprStmt expr => by
    rw [statementOffences, expressionOffences_eq_nil_iff]
    exact ⟨.exprStmt, fun | .exprStmt h => h⟩
  | .program _ => ⟨nofun, nofun⟩
  | .ident _ => ⟨nofun, nofun⟩
  | .intLit _ => ⟨nofun, nofun⟩
  | .binary _ _ _ => ⟨nofun, nofun⟩

theorem blockOffences_eq_nil_iff : ∀ {n : Node},
    n.blockOffences = [] ↔ ∃ ss, n = .block ss ∧ ∀ s ∈ ss, Grammar.Statement s
  | .block ss => by
    rw [blockOffences, offencesOf_eq_nil_iff]
    exact ⟨fun h => ⟨ss, rfl, h⟩, fun ⟨_, heq, h⟩ => Node.block.inj heq ▸ h⟩
  | .program _ => ⟨nofun, nofun⟩
  | .scalarInit _ _ => ⟨nofun, nofun⟩
  | .tableInit _ _ _ => ⟨nofun, nofun⟩
  | .wait _ => ⟨nofun, nofun⟩
  | .scalarAssign _ _ => ⟨nofun, nofun⟩
  | .tableAssign _ _ _ => ⟨nofun, nofun⟩
  | .ifElse _ _ _ => ⟨nofun, nofun⟩
  | .whileLoop _ _ => ⟨nofun, nofun⟩
  | .exprStmt _ => ⟨nofun, nofun⟩
  | .ident _ => ⟨nofun, nofun⟩
  | .intLit _ => ⟨nofun, nofun⟩
  | .binary _ _ _ => ⟨nofun, nofun⟩

theorem offencesOf_eq_nil_iff : ∀ {ss : List Node},
    offencesOf ss = [] ↔ ∀ s ∈ ss, Grammar.Statement s
  | [] => ⟨fun _ => List.forall_mem_nil _, fun _ => rfl⟩
  | s :: ss => by
    rw [offencesOf, List.append_eq_nil_iff, statementOffences_eq_nil_iff, offencesOf_eq_nil_iff,
      List.forall_mem_cons]

end

/-- **Nothing is wrong** exactly with the programs of the grammar. -/
theorem offences_eq_nil_iff {n : Node} : n.offences = [] ↔ Grammar.Program n := by
  cases n with
  | program ss =>
    rw [offences, offencesOf_eq_nil_iff]
    exact ⟨fun h => ⟨ss, rfl, h⟩, fun ⟨_, heq, h⟩ => Node.program.inj heq ▸ h⟩
  | _ => exact ⟨nofun, nofun⟩

end Node

/-! ## Steps -/

namespace Gen

variable {α β : Type} {os ps : List TreeFault} {Q : α → Prop} {Q' : β → Prop}

/-- Whatever the counters: the step fails with the first of the offences `os`, and if there are none it
    has a result, which satisfies `Q`. -/
def Reports (os : List TreeFault) (Q : α → Prop) (m : Gen α) : Prop :=
  ∀ names : Names, (∃ a, (m names).result = .ok a ∧ os = [] ∧ Q a) ∨
    ∃ e, (m names).result = .error e ∧ os.head? = some e

namespace Reports

theorem of_ok {m : Gen α} (h : ∀ names, ∃ a, (m names).result = .ok a ∧ Q a) : Reports [] Q m := by
  intro names
  obtain ⟨a, ha, hq⟩ := h names
  exact .inl ⟨a, ha, rfl, hq⟩

theorem pure {a : α} (h : Q a) : Reports [] Q (Pure.pure a) := of_ok fun _ => ⟨a, rfl, h⟩

theorem fail (e : TreeFault) : Reports [e] Q (Gen.fail e) := fun _ => .inr ⟨e, rfl, rfl⟩

/-- **Chains**: the offences of the first step come first. -/
theorem bind {m : Gen α} {f : α → Gen β} (hm : Reports os Q m) (hf : ∀ a, Q a → Reports ps Q' (f a)) :
    Reports (os ++ ps) Q' (m >>= f) := by
  intro names
  rw [bind_apply]
  rcases hm names with ⟨a, hr, rfl, hq⟩ | ⟨e, hr, he⟩
  · rw [hr]
    exact hf a hq (m names).names
  · rw [hr]
    refine .inr ⟨e, rfl, ?_⟩
    rw [List.head?_append, he]
    rfl

/-- Behind the last step that can fail nothing is added. -/
theorem bind_ok {m : Gen α} {f : α → Gen β} (hm : Reports os Q m) (hf : ∀ a, Q a → Reports [] Q' (f a)) :
    Reports os Q' (m >>= f) := by
  have h := hm.bind hf
  rwa [List.append_nil] at h

/-- A step that cannot fail adds no offence. -/
theorem then_of_ok {m : Gen α} {f : α → Gen β} (hm : ∀ names, ∃ a, (m names).result = .ok a)
    (hf : ∀ a, Reports ps Q' (f a)) : Reports ps Q' (m >>= f) := by
  have h : Reports [] (fun _ => True) m := of_ok fun names =>
    (hm names).imp fun _ ha => ⟨ha, trivial⟩
  exact h.bind fun a _ => hf a

theorem identifier (x : Text) : Reports (Node.nameOffences x) (fun y => y = x) (Gen.identifier x) := by
  unfold Gen.identifier Node.nameOffences
  split
  · exact .pure rfl
  · exact .fail _

theorem literal (t : Text) : Reports (Node.literalOffences t) (fun _ => True) (Gen.literal t) := by
  unfold Gen.literal Node.literalOffences Node.word?
  cases Numeral.readWord 10 t.trim with
  | ok v => exact .pure trivial
  | error fault => exact .fail _

end Reports

end Gen

open Gen (Reports)

/-! ## Expressions -/

theorem operate_ok (op : Operator) (names : Names) : ∃ u, (operate op names).result = .ok u := by
  cases op <;> exact ⟨(), rfl⟩

/-- **Expressions** report what is wrong with them. -/
theorem reports_expression : ∀ n : Node,
    Reports n.expressionOffences (fun _ => True) (expression n)
  | .ident x => (Reports.identifier x).bind_ok fun _ _ => .pure trivial
  | .intLit t => (Reports.literal t).bind_ok fun v _ => .of_ok fun _ => ⟨_, rfl, trivial⟩
  | .binary op left right => by
    rw [expression, Node.expressionOffences]
    refine (reports_expression left).bind fun l _ => (reports_expression right).bind_ok fun r _ => ?_
    refine .then_of_ok (fun _ => ⟨(), rfl⟩) fun _ => .then_of_ok (operate_ok op) fun _ => ?_
    exact .then_of_ok (fun _ => ⟨_, rfl⟩) fun _ => .then_of_ok (fun _ => ⟨(), rfl⟩) fun _ => .pure trivial
  | .program _ => .fail _
  | .block _ => .fail _
  | .scalarInit _ _ => .fail _
  | .tableInit _ _ _ => .fail _
  | .wait _ => .fail _
  | .scalarAssign _ _ => .fail _
  | .tableAssign _ _ _ => .fail _
  | .ifElse _ _ _ => .fail _
  | .whileLoop _ _ => .fail _
  | .exprStmt _ => .fail _

/-! ## Statements -/

theorem reports_targetName (target : Node) :
    Reports target.targetOffences (fun x => target = .ident x) (targetName target) := by
  cases target with
  | ident x => exact .pure rfl
  | _ => exact .fail _

/-- The value of an assignment is checked before the name. -/
theorem reports_assignment (x : Text) (value : Node) :
    Reports (value.expressionOffences ++ Node.nameOffences x) (fun _ => True) (assignment x value) := by
  have htarget : Reports (Node.nameOffences x) (fun _ => True) (declaredVariable x) :=
    (Reports.identifier x).bind_ok fun _ _ => .then_of_ok (fun _ => ⟨(), rfl⟩) fun _ => .pure trivial
  refine (reports_expression value).bind fun source _ => htarget.bind_ok fun target _ => ?_
  exact .of_ok fun _ => ⟨(), rfl, trivial⟩

mutual

/-- **Statements** report what is wrong with them. -/
theorem reports_statement : ∀ n : Node, Reports n.statementOffences (fun _ => True) (statement n)
  | .block ss => reports_statements ss
  | .scalarInit x value => reports_assignment x value
  | .scalarAssign target value => by
    rw [statement, Node.statementOffences]
    refine (reports_targetName target).bind fun x hx => ?_
    subst hx
    exact reports_assignment x value
  | .tableInit x size default => by
    rw [statement, Node.statementOffences]
    refine (Reports.identifier x).bind fun y _ => (Reports.literal size).bind fun n _ =>
      (Reports.literal default).bind_ok fun v _ => ?_
    exact .of_ok fun _ => ⟨(), rfl, trivial⟩
  | .tableAssign target index value => by
    rw [statement, Node.statementOffences]
    refine (reports_targetName target).bind fun x _ => (reports_expression index).bind fun i _ =>
      (reports_expression value).bind_ok fun v _ => ?_
    exact .of_ok fun _ => ⟨(), rfl, trivial⟩
  | .wait t => (Reports.literal t).bind_ok fun d _ => .of_ok fun _ => ⟨(), rfl, trivial⟩
  | .ifElse condition consequence alternative => by
    rw [statement, Node.statementOffences_ifElse]
    refine (reports_expression condition).bind fun c _ => ?_
    refine .then_of_ok (fun _ => ⟨_, rfl⟩) fun n => .then_of_ok (fun _ => ⟨(), rfl⟩) fun _ => ?_
    refine (reports_innerBlock consequence).bind fun _ _ => .then_of_ok (fun _ => ⟨(), rfl⟩) fun _ => ?_
    exact (reports_alternativePart n alternative).bind_ok fun _ _ => .of_ok fun _ => ⟨(), rfl, trivial⟩
  | .whileLoop condition body => by
    rw [statement, Node.statementOffences]
    refine .then_of_ok (fun _ => ⟨_, rfl⟩) fun n => .then_of_ok (fun _ => ⟨(), rfl⟩) fun _ => ?_
    refine (reports_expression condition).bind fun c _ => .then_of_ok (fun _ => ⟨(), rfl⟩) fun _ => ?_
    exact (reports_innerBlock body).bind_ok fun _ _ => .of_ok fun _ => ⟨(), rfl, trivial⟩
  | .exprStmt expr => (reports_expression expr).bind_ok fun _ _ => .pure trivial
  | .program _ => .fail _
  | .ident _ => .fail _
  | .intLit _ => .fail _
  | .binary _ _ _ => .fail _

theorem reports_innerBlock : ∀ n : Node, Reports n.blockOffences (fun _ => True) (innerBlock n)
  | .block ss => reports_statements ss
  | .program _ => .fail _
  | .scalarInit _ _ => .fail _
  | .tableInit _ _ _ => .fail _
  | .wait _ => .fail _
  | .scalarAssign _ _ => .fail _
  | .tableAssign _ _ _ => .fail _
  | .ifElse _ _ _ => .fail _
  | .whileLoop _ _ => .fail _
  | .exprStmt _ => .fail _
  | .ident _ => .fail _
  | .intLit _ => .fail _
  | .binary _ _ _ => .fail _

/-- An empty block is no alternative, and nothing is wrong with it either. -/
theorem reports_alternativePart (n : Nat) : ∀ alternative : Option Node,
    Reports (alternative.elim [] Node.blockOffences) (fun _ => True) (alternativePart n alternative)
  | none => .pure trivial
  | some other => by
    have hmarked : Reports other.blockOffences (fun _ => True) (do
        Gen.body [Code.mark ⟨.alternative, n⟩]
        innerBlock other) :=
      .then_of_ok (fun _ => ⟨(), rfl⟩) fun _ => reports_innerBlock other
    cases other with
    | block ts =>
      cases ts with
      | nil => exact .pure trivial
      | cons t ts => exact hmarked
    | _ => exact hmarked

theorem reports_statements : ∀ ss : List Node,
    Reports (Node.offencesOf ss) (fun _ => True) (statements ss)
  | [] => .pure trivial
  | s :: ss => by
    rw [statements, Node.offencesOf]
    exact (reports_statement s).bind fun _ _ => reports_statements ss

end

/-! ## Programs -/

/-- **Programs** report what is wrong with them. -/
theorem reports_program (n : Node) : Reports n.offences (fun _ => True) (program n) := by
  cases n with
  | program ss => exact reports_statements ss
  | _ => exact .fail _

/-- **Outcome of generation.**  A tree has code exactly when it is a program of the grammar: statements in
    the lists of statements, expressions for values, conditions, indices and operands, blocks for
    branches and loop bodies, names for the targets of assignments, identifiers and 16-bit decimals
    wherever names and literals stand.  Otherwise the fault is the first of its offences in the order of
    generation, and no other. -/
theorem outcome_of_generation (n : Node) :
    ((∃ s, Streams.ofProgram n = .ok s) ↔ Grammar.Program n) ∧
    ∀ e, Streams.ofProgram n = .error e ↔ n.offences.head? = some e := by
  rw [← Node.offences_eq_nil_iff]
  have hstreams : Streams.ofProgram n = (program n Names.fresh).result.map
      fun _ => (Generator.new.run (program n)).2.streams := rfl
  rw [hstreams]
  rcases reports_program n Names.fresh with ⟨u, hr, hnone, -⟩ | ⟨fault, hr, hfirst⟩
  · rw [hr, hnone]
    exact ⟨⟨fun _ => rfl, fun _ => ⟨_, rfl⟩⟩, fun e => ⟨nofun, nofun⟩⟩
  · rw [hr, hfirst]
    have hsome : n.offences ≠ [] := by
      rintro heq
      rw [heq] at hfirst
      cases hfirst
    refine ⟨⟨nofun, fun h => absurd h hsome⟩, fun e => ?_⟩
    show Except.error fault = Except.error e ↔ _
    rw [Except.error.injEq, Option.some.injEq]

end Minicore
