/-
  DERIVATIONS — which code a node has.

  Problem: the generator is a monad of steps that number, emit and may fail.  Everything said about
  generated code is said about steps that did NOT fail, and should not open the monad again.

  1. **Relations** — `ExpressionCode` and `StatementCode` list what a successful step can be: one rule
     per kind of node, with the counters before and after, the emission, and the CONSTANTS among its
     temporaries (those that hold a literal; the others are written by code).

  2. **Soundness** — every successful step is derived (`expression_derived`, `statement_derived`), by
     recursion on the tree; a chain of steps is taken apart by one lemma (`Gen.of_bind`).
-/
import Minicore.Codegen.Rules
import Minicore.Tree.Parts

namespace Minicore

/-! ## Successful steps -/

/-- The contribution of body statements alone. -/
def Emission.code (ss : List Statement) : Emission := ⟨ss, [], []⟩

namespace Gen

variable {α β : Type} {names names' : Names} {e : Emission}

/-- A chain that succeeds is two steps that succeed. -/
theorem of_bind {m : Gen α} {f : α → Gen β} {b : β} (h : (m >>= f) names = ⟨.ok b, names', e⟩) :
    ∃ a mid e₁ e₂, m names = ⟨.ok a, mid, e₁⟩ ∧ f a mid = ⟨.ok b, names', e₂⟩ ∧ e = e₁ ++ e₂ := by
  rw [bind_apply] at h
  rcases hm : m names with ⟨result, mid, e₁⟩
  rw [hm] at h
  cases result with
  | error fault => cases h
  | ok a =>
    rcases hf : f a mid with ⟨result, last, e₂⟩
    simp only [hf, Outcome.mk.injEq] at h
    obtain ⟨rfl, rfl, rfl⟩ := h
    exact ⟨a, mid, e₁, e₂, rfl, hf, rfl⟩

theorem of_pure {a b : α} (h : (Pure.pure a : Gen α) names = ⟨.ok b, names', e⟩) :
    b = a ∧ names' = names ∧ e = Emission.empty := by
  cases h
  exact ⟨rfl, rfl, rfl⟩

theorem of_body {ss : List Statement} {u : Unit} (h : body ss names = ⟨.ok u, names', e⟩) :
    names' = names ∧ e = Emission.code ss := by
  cases h
  exact ⟨rfl, rfl⟩

theorem of_label {n : Nat} (h : label names = ⟨.ok n, names', e⟩) :
    n = names.labels + 1 ∧ names' = ⟨names.temps, names.labels + 1⟩ ∧ e = Emission.empty := by
  cases h
  exact ⟨rfl, rfl, rfl⟩

theorem of_temp {v : UInt16} {c : Cell} (h : temp v names = ⟨.ok c, names', e⟩) :
    c = .temp (names.temps + 1) ∧ names' = ⟨names.temps + 1, names.labels⟩ ∧
      e = ⟨[], [(names.temps + 1, v)], []⟩ := by
  cases h
  exact ⟨rfl, rfl, rfl⟩

/-- A name that is let through is an identifier. -/
theorem of_identifier {t x : Text} (h : identifier t names = ⟨.ok x, names', e⟩) :
    t.isIdentifier = true ∧ x = t ∧ names' = names ∧ e = Emission.empty := by
  unfold identifier at h
  split at h
  · rename_i hid
    cases h
    exact ⟨hid, rfl, rfl, rfl⟩
  · cases h

/-- A literal that is let through is a word. -/
theorem of_literal {t : Text} {v : UInt16} (h : literal t names = ⟨.ok v, names', e⟩) :
    Node.word? t = some v ∧ names' = names ∧ e = Emission.empty := by
  unfold literal at h
  cases hw : Numeral.readWord 10 t.trim with
  | error fault => rw [hw] at h; cases h
  | ok w =>
    rw [hw] at h
    cases h
    exact ⟨by rw [Node.word?, hw]; rfl, rfl, rfl⟩

end Gen

/-! ## Expressions -/

/-- The code of an operator on `R0` and `R3`; a comparison has the label number `n`. -/
def operatorCode : Operator → Nat → List Statement
  | .add, _ => [Code.plain .add]
  | .sub, _ => [Code.plain .sub]
  | .mul, _ => [Code.plain .mul]
  | .eq, n => Code.compare .beq n
  | .lt, n => Code.compare .bcc n

/-- How many label numbers an operator takes. -/
def Operator.labels : Operator → Nat
  | .eq | .lt => 1
  | _ => 0

/-- `ExpressionCode n before c after e ks`: the code of the expression `n` leaves its value in the cell
    `c`; the constants among its temporaries are `ks`. -/
inductive ExpressionCode : Node → Names → Cell → Names → Emission → List (Nat × UInt16) → Prop
  | ident {x : Text} {n₀ : Names} :
      x.isIdentifier = true → ExpressionCode (.ident x) n₀ (.var x) n₀ Emission.empty []
  | intLit {t : Text} {v : UInt16} {n₀ : Names} :
      Node.word? t = some v →
      ExpressionCode (.intLit t) n₀ (.temp (n₀.temps + 1)) ⟨n₀.temps + 1, n₀.labels⟩
        ⟨[], [(n₀.temps + 1, v)], []⟩ [(n₀.temps + 1, v)]
  | binary {op : Operator} {left right : Node} {n₀ n₁ n₂ : Names} {l r : Cell} {a b : Emission}
      {ks ls : List (Nat × UInt16)} :
      ExpressionCode left n₀ l n₁ a ks → ExpressionCode right n₁ r n₂ b ls →
      ExpressionCode (.binary op left right) n₀ (.temp (n₂.temps + 1))
        ⟨n₂.temps + 1, n₂.labels + op.labels⟩
        (a ++ (b ++ ⟨Code.load0 l ++ (Code.load3 r ++ (operatorCode op (n₂.labels + 1) ++
          Code.store (.temp (n₂.temps + 1)))), [(n₂.temps + 1, 0)], []⟩)) (ks ++ ls)

/-- The step of an operator. -/
theorem of_operate {op : Operator} {names names' : Names} {u : Unit} {e : Emission}
    (h : operate op names = ⟨.ok u, names', e⟩) :
    names' = ⟨names.temps, names.labels + op.labels⟩ ∧
      e = Emission.code (operatorCode op (names.labels + 1)) := by
  cases op with
  | add => exact Gen.of_body h
  | sub => exact Gen.of_body h
  | mul => exact Gen.of_body h
  | eq =>
    obtain ⟨n, mid, e₁, e₂, hl, hb, rfl⟩ := Gen.of_bind h
    obtain ⟨rfl, rfl, rfl⟩ := Gen.of_label hl
    exact Gen.of_body hb
  | lt =>
    obtain ⟨n, mid, e₁, e₂, hl, hb, rfl⟩ := Gen.of_bind h
    obtain ⟨rfl, rfl, rfl⟩ := Gen.of_label hl
    exact Gen.of_body hb

/-- **Every expression that has code has a derivation.** -/
theorem expression_derived : ∀ {n : Node} {names names' : Names} {c : Cell} {e : Emission},
    expression n names = ⟨.ok c, names', e⟩ → ∃ ks, ExpressionCode n names c names' e ks
  | .ident x, names, names', c, e, h => by
    obtain ⟨y, mid, e₁, e₂, hx, hp, rfl⟩ := Gen.of_bind h
    obtain ⟨hid, rfl, rfl, rfl⟩ := Gen.of_identifier hx
    obtain ⟨rfl, rfl, rfl⟩ := Gen.of_pure hp
    exact ⟨[], .ident hid⟩
  | .intLit t, names, names', c, e, h => by
    obtain ⟨v, mid, e₁, e₂, hv, hc, rfl⟩ := Gen.of_bind h
    obtain ⟨hw, rfl, rfl⟩ := Gen.of_literal hv
    obtain ⟨rfl, rfl, rfl⟩ := Gen.of_temp hc
    exact ⟨_, .intLit hw⟩
  | .binary op left right, names, names', c, e, h => by
    rw [expression] at h
    -- peel off the steps first to last, then say what each contributed
    obtain ⟨l, n₁, a, e₁, hl, h₁, rfl⟩ := Gen.of_bind h
    obtain ⟨r, n₂, b, e₂, hr, h₂, rfl⟩ := Gen.of_bind h₁
    obtain ⟨_, n₃, e₃, e₄, hload, h₃, rfl⟩ := Gen.of_bind h₂
    obtain ⟨_, n₄, e₅, e₆, hop, h₄, rfl⟩ := Gen.of_bind h₃
    obtain ⟨cell, n₅, e₇, e₈, htemp, h₅, rfl⟩ := Gen.of_bind h₄
    obtain ⟨_, n₆, e₉, e₁₀, hstore, h₆, rfl⟩ := Gen.of_bind h₅
    obtain ⟨rfl, rfl⟩ := Gen.of_body hload
    obtain ⟨rfl, rfl⟩ := of_operate hop
    obtain ⟨rfl, rfl, rfl⟩ := Gen.of_temp htemp
    obtain ⟨rfl, rfl⟩ := Gen.of_body hstore
    obtain ⟨rfl, rfl, rfl⟩ := Gen.of_pure h₆
    obtain ⟨ks, hl⟩ := expression_derived hl
    obtain ⟨ls, hr⟩ := expression_derived hr
    refine ⟨ks ++ ls, ?_⟩
    have hcode : ExpressionCode (.binary op left right) _ _ _ _ _ := .binary hl hr
    simpa [Emission.append_def, Emission.code, Emission.empty] using hcode
  | .program _, _, _, _, _, h => nomatch h
  | .block _, _, _, _, _, h => nomatch h
  | .scalarInit _ _, _, _, _, _, h => nomatch h
  | .tableInit _ _ _, _, _, _, _, h => nomatch h
  | .wait _, _, _, _, _, h => nomatch h
  | .scalarAssign _ _, _, _, _, _, h => nomatch h
  | .tableAssign _ _ _, _, _, _, _, h => nomatch h
  | .ifElse _ _ _, _, _, _, _, h => nomatch h
  | .whileLoop _ _, _, _, _, _, h => nomatch h
  | .exprStmt _, _, _, _, _, h => nomatch h

/-! ## Statements -/

/-- A store of `v` through the base of a table and the index in `i`. -/
def tableStore (x : Text) (i v : Cell) : List Statement :=
  Code.load3 v ++ Code.load0 i ++
    [.code .mov1 (some (tableBase x)), Code.plain .addp, Code.plain .str3]

/-- `StatementCode n before after e ks`: the statement `n` has the code and the declarations `e`; the
    constants among its temporaries are `ks`. -/
inductive StatementCode : Node → Names → Names → Emission → List (Nat × UInt16) → Prop
  | nil {n₀ : Names} : StatementCode (.block []) n₀ n₀ Emission.empty []
  | cons {s : Node} {ss : List Node} {n₀ n₁ n₂ : Names} {a b : Emission} {ks ls : List (Nat × UInt16)} :
      StatementCode s n₀ n₁ a ks → StatementCode (.block ss) n₁ n₂ b ls →
      StatementCode (.block (s :: ss)) n₀ n₂ (a ++ b) (ks ++ ls)
  | assign {n value : Node} {x : Text} {n₀ n₁ : Names} {c : Cell} {a : Emission}
      {ks : List (Nat × UInt16)} :
      n.Assigns x value → x.isIdentifier = true → ExpressionCode value n₀ c n₁ a ks →
      StatementCode n n₀ n₁ (a ++ ⟨Code.copy c (.var x), [], [.variable x]⟩) ks
  | tableInit {x size default : Text} {n v : UInt16} {n₀ : Names} :
      x.isIdentifier = true → Node.word? size = some n → Node.word? default = some v →
      StatementCode (.tableInit x size default) n₀ n₀ ⟨[], [], [.table x n v]⟩ []
  | tableAssign {x : Text} {index value : Node} {n₀ n₁ n₂ : Names} {i v : Cell} {a b : Emission}
      {ks ls : List (Nat × UInt16)} :
      ExpressionCode index n₀ i n₁ a ks → ExpressionCode value n₁ v n₂ b ls →
      StatementCode (.tableAssign (.ident x) index value) n₀ n₂
        (a ++ (b ++ .code (tableStore x i v))) (ks ++ ls)
  | wait {t : Text} {d : UInt16} {n₀ : Names} :
      Node.word? t = some d →
      StatementCode (.wait t) n₀ n₀ (.code [.code .wait (some (.literal d))]) []
  | ifThen {condition : Node} {ss : List Node} {alternative : Option Node} {n₀ n₁ n₂ : Names} {c : Cell}
      {a b : Emission} {ks ls : List (Nat × UInt16)} :
      alternative = none ∨ alternative = some (.block []) →
      ExpressionCode condition n₀ c n₁ a ks →
      StatementCode (.block ss) ⟨n₁.temps, n₁.labels + 1⟩ n₂ b ls →
      StatementCode (.ifElse condition (.block ss) alternative) n₀ n₂
        (a ++ (.code (Code.test c ++ [Code.branch .bne ⟨.endIf, n₁.labels + 1⟩]) ++ (b ++
          .code [Code.branch .b ⟨.endIf, n₁.labels + 1⟩, Code.mark ⟨.endIf, n₁.labels + 1⟩])))
        (ks ++ ls)
  | ifElse {condition t : Node} {ss ts : List Node} {n₀ n₁ n₂ n₃ : Names} {c : Cell}
      {a b d : Emission} {ks ls ms : List (Nat × UInt16)} :
      ExpressionCode condition n₀ c n₁ a ks →
      StatementCode (.block ss) ⟨n₁.temps, n₁.labels + 1⟩ n₂ b ls →
      StatementCode (.block (t :: ts)) n₂ n₃ d ms →
      StatementCode (.ifElse condition (.block ss) (some (.block (t :: ts)))) n₀ n₃
        (a ++ (.code (Code.test c ++ [Code.branch .bne ⟨.alternative, n₁.labels + 1⟩]) ++ (b ++
          (.code [Code.branch .b ⟨.endIf, n₁.labels + 1⟩, Code.mark ⟨.alternative, n₁.labels + 1⟩] ++
            (d ++ .code [Code.mark ⟨.endIf, n₁.labels + 1⟩])))))
        (ks ++ (ls ++ ms))
  | whileLoop {condition : Node} {ss : List Node} {n₀ n₁ n₂ : Names} {c : Cell} {a b : Emission}
      {ks ls : List (Nat × UInt16)} :
      ExpressionCode condition ⟨n₀.temps, n₀.labels + 1⟩ c n₁ a ks →
      StatementCode (.block ss) n₁ n₂ b ls →
      StatementCode (.whileLoop condition (.block ss)) n₀ n₂
        (.code [Code.mark ⟨.loop, n₀.labels + 1⟩] ++ (a ++
          (.code (Code.test c ++ [Code.branch .bne ⟨.endLoop, n₀.labels + 1⟩]) ++ (b ++
            .code [Code.branch .b ⟨.loop, n₀.labels + 1⟩, Code.mark ⟨.endLoop, n₀.labels + 1⟩]))))
        (ks ++ ls)
  | exprStmt {expr : Node} {n₀ n₁ : Names} {c : Cell} {a : Emission} {ks : List (Nat × UInt16)} :
      ExpressionCode expr n₀ c n₁ a ks → StatementCode (.exprStmt expr) n₀ n₁ a ks

/-- The step of an assignment. -/
theorem assignment_derived {n value : Node} {x : Text} {names names' : Names} {u : Unit} {e : Emission}
    (hn : n.Assigns x value) (h : assignment x value names = ⟨.ok u, names', e⟩) :
    ∃ ks, StatementCode n names names' e ks := by
  rw [assignment] at h
  obtain ⟨c, n₁, a, e₁, hc, h₁, rfl⟩ := Gen.of_bind h
  obtain ⟨target, n₂, e₂, e₃, ht, h₂, rfl⟩ := Gen.of_bind h₁
  obtain ⟨y, n₃, e₄, e₅, hx, h₃, rfl⟩ := Gen.of_bind ht
  obtain ⟨hid, rfl, rfl, rfl⟩ := Gen.of_identifier hx
  cases h₃
  obtain ⟨rfl, rfl⟩ := Gen.of_body h₂
  obtain ⟨ks, hc⟩ := expression_derived hc
  exact ⟨ks, .assign hn hid hc⟩

/-- The step that takes the name of a target. -/
theorem of_targetName {target : Node} {x : Text} {names names' : Names} {e : Emission}
    (h : targetName target names = ⟨.ok x, names', e⟩) :
    target = .ident x ∧ names' = names ∧ e = Emission.empty := by
  cases target with
  | ident y =>
    cases h
    exact ⟨rfl, rfl, rfl⟩
  | _ => cases h

mutual

/-- **Every statement that has code has a derivation.** -/
theorem statement_derived : ∀ {n : Node} {names names' : Names} {u : Unit} {e : Emission},
    statement n names = ⟨.ok u, names', e⟩ → ∃ ks, StatementCode n names names' e ks
  | .block ss, names, names', u, e, h => statements_derived h
  | .scalarInit x value, names, names', u, e, h => assignment_derived (.inl rfl) h
  | .scalarAssign target value, names, names', u, e, h => by
    rw [statement] at h
    obtain ⟨x, n₁, e₁, e₂, hx, h₁, rfl⟩ := Gen.of_bind h
    obtain ⟨rfl, rfl, rfl⟩ := of_targetName hx
    exact assignment_derived (.inr rfl) h₁
  | .tableInit x size default, names, names', u, e, h => by
    rw [statement] at h
    obtain ⟨y, n₁, e₁, e₂, hx, h₁, rfl⟩ := Gen.of_bind h
    obtain ⟨n, n₂, e₃, e₄, hn, h₂, rfl⟩ := Gen.of_bind h₁
    obtain ⟨v, n₃, e₅, e₆, hv, h₃, rfl⟩ := Gen.of_bind h₂
    obtain ⟨hid, rfl, rfl, rfl⟩ := Gen.of_identifier hx
    obtain ⟨hsize, rfl, rfl⟩ := Gen.of_literal hn
    obtain ⟨hdefault, rfl, rfl⟩ := Gen.of_literal hv
    cases h₃
    exact ⟨[], .tableInit hid hsize hdefault⟩
  | .tableAssign target index value, names, names', u, e, h => by
    rw [statement] at h
    obtain ⟨x, n₁, e₁, e₂, hx, h₁, rfl⟩ := Gen.of_bind h
    obtain ⟨i, n₂, a, e₃, hi, h₂, rfl⟩ := Gen.of_bind h₁
    obtain ⟨v, n₃, b, e₄, hv, h₃, rfl⟩ := Gen.of_bind h₂
    obtain ⟨rfl, rfl, rfl⟩ := of_targetName hx
    obtain ⟨rfl, rfl⟩ := Gen.of_body h₃
    obtain ⟨ks, hi⟩ := expression_derived hi
    obtain ⟨ls, hv⟩ := expression_derived hv
    exact ⟨ks ++ ls, .tableAssign hi hv⟩
  | .wait t, names, names', u, e, h => by
    rw [statement] at h
    obtain ⟨d, n₁, e₁, e₂, hd, h₁, rfl⟩ := Gen.of_bind h
    obtain ⟨hword, rfl, rfl⟩ := Gen.of_literal hd
    obtain ⟨rfl, rfl⟩ := Gen.of_body h₁
    exact ⟨[], .wait hword⟩
  | .ifElse condition consequence alternative, names, names', u, e, h => by
    rw [statement] at h
    obtain ⟨c, n₁, a, e₁, hc, h₁, rfl⟩ := Gen.of_bind h
    obtain ⟨k, n₂, e₂, e₃, hk, h₂, rfl⟩ := Gen.of_bind h₁
    obtain ⟨_, n₃, e₄, e₅, htest, h₃, rfl⟩ := Gen.of_bind h₂
    obtain ⟨_, n₄, b, e₆, hb, h₄, rfl⟩ := Gen.of_bind h₃
    obtain ⟨_, n₅, e₇, e₈, hjump, h₅, rfl⟩ := Gen.of_bind h₄
    obtain ⟨_, n₆, d, e₉, hd, h₆, rfl⟩ := Gen.of_bind h₅
    obtain ⟨rfl, rfl, rfl⟩ := Gen.of_label hk
    obtain ⟨rfl, rfl⟩ := Gen.of_body htest
    obtain ⟨rfl, rfl⟩ := Gen.of_body hjump
    obtain ⟨rfl, rfl⟩ := Gen.of_body h₆
    obtain ⟨ks, hcond⟩ := expression_derived hc
    obtain ⟨ss, ls, rfl, hbody⟩ := innerBlock_derived hb
    -- an empty alternative is generated like none at all
    cases alternative with
    | none =>
      obtain ⟨rfl, rfl, rfl⟩ := Gen.of_pure hd
      exact ⟨ks ++ ls, .ifThen (.inl rfl) hcond hbody⟩
    | some other =>
      cases other with
      | block ts =>
        cases ts with
        | nil =>
          obtain ⟨rfl, rfl, rfl⟩ := Gen.of_pure hd
          exact ⟨ks ++ ls, .ifThen (.inr rfl) hcond hbody⟩
        | cons t ts =>
          obtain ⟨_, n₇, e₁₀, e₁₁, hmark, h₇, rfl⟩ := Gen.of_bind hd
          obtain ⟨rfl, rfl⟩ := Gen.of_body hmark
          obtain ⟨ms, hother⟩ := statements_derived h₇
          refine ⟨ks ++ (ls ++ ms), ?_⟩
          have hcode := StatementCode.ifElse hcond hbody hother
          simpa [Emission.append_def, Emission.code, Emission.empty, hasAlternative] using hcode
      | _ =>
        obtain ⟨_, n₇, e₁₀, e₁₁, hmark, h₇, rfl⟩ := Gen.of_bind hd
        cases h₇
  | .whileLoop condition body, names, names', u, e, h => by
    rw [statement] at h
    obtain ⟨k, n₁, e₁, e₂, hk, h₁, rfl⟩ := Gen.of_bind h
    obtain ⟨_, n₂, e₃, e₄, hmark, h₂, rfl⟩ := Gen.of_bind h₁
    obtain ⟨c, n₃, a, e₅, hc, h₃, rfl⟩ := Gen.of_bind h₂
    obtain ⟨_, n₄, e₆, e₇, htest, h₄, rfl⟩ := Gen.of_bind h₃
    obtain ⟨_, n₅, b, e₈, hb, h₅, rfl⟩ := Gen.of_bind h₄
    obtain ⟨rfl, rfl, rfl⟩ := Gen.of_label hk
    obtain ⟨rfl, rfl⟩ := Gen.of_body hmark
    obtain ⟨rfl, rfl⟩ := Gen.of_body htest
    obtain ⟨rfl, rfl⟩ := Gen.of_body h₅
    obtain ⟨ks, hcond⟩ := expression_derived hc
    obtain ⟨ss, ls, rfl, hbody⟩ := innerBlock_derived hb
    exact ⟨ks ++ ls, .whileLoop hcond hbody⟩
  | .exprStmt expr, names, names', u, e, h => by
    rw [statement] at h
    obtain ⟨c, n₁, a, e₁, hc, h₁, rfl⟩ := Gen.of_bind h
    obtain ⟨rfl, rfl, rfl⟩ := Gen.of_pure h₁
    obtain ⟨ks, hc⟩ := expression_derived hc
    rw [Emission.append_empty]
    exact ⟨ks, .exprStmt hc⟩
  | .program _, _, _, _, _, h => nomatch h
  | .ident _, _, _, _, _, h => nomatch h
  | .intLit _, _, _, _, _, h => nomatch h
  | .binary _ _ _, _, _, _, _, h => nomatch h

/-- A branch or a loop body is a block, and the block has a derivation. -/
theorem innerBlock_derived : ∀ {n : Node} {names names' : Names} {u : Unit} {e : Emission},
    innerBlock n names = ⟨.ok u, names', e⟩ →
      ∃ ss ks, n = .block ss ∧ StatementCode (.block ss) names names' e ks
  | .block ss, names, names', u, e, h => by
    rw [innerBlock] at h
    obtain ⟨ks, hss⟩ := statements_derived h
    exact ⟨ss, ks, rfl, hss⟩

/-- A list of statements is derived as a block. -/
theorem statements_derived : ∀ {ss : List Node} {names names' : Names} {u : Unit} {e : Emission},
    statements ss names = ⟨.ok u, names', e⟩ → ∃ ks, StatementCode (.block ss) names names' e ks
  | [], names, names', u, e, h => by
    obtain ⟨rfl, rfl, rfl⟩ := Gen.of_pure h
    exact ⟨[], .nil⟩
  | s :: ss, names, names', u, e, h => by
    rw [statements] at h
    obtain ⟨_, n₁, a, b, hs, hss, rfl⟩ := Gen.of_bind h
    obtain ⟨ks, hs⟩ := statement_derived hs
    obtain ⟨ls, hss⟩ := statements_derived hss
    exact ⟨ks ++ ls, .cons hs hss⟩

end

end Minicore
