/-
  CONTEXT — a piece of a tree has the same code wherever it is generated.

  Problem: a generator is started anywhere: behind other code, in the middle of a numbering, for a part
  of a program only.  Nothing that stands there already may show in what it adds, except in the
  numbers, and the numbers by ONE shift for the temporaries and one for the labels.

  1. **Two runs** — `Gen.Alike a b T R m m'`: the step `m` counting from `a` and the step `m'` counting
     from `b` both have results related by `R` or both fail alike; the second contributes what the first
     does, renumbered; and both counters go on by the same.  On the way it is kept what is asked of a
     single run elsewhere: the temporaries are counted, and only the tables `T` are initialized.

  2. **Rules** — one for each way to make a step; a chain adds up its counters (`Alike.bind`).

  3. **Tree walk** — one case for each kind of node, by the rules (`alike_expression`,
     `alike_statement`).

  4. **Cutting** — statements one behind another are a chain of two steps (`statements_append`), and the
     second of them does not see what the first has gathered.
-/
import Minicore.Codegen.Relay
import Minicore.Proofs.Codegen.Declarations
import Minicore.Proofs.Codegen.Renumbering
import Minicore.Proofs.Codegen.Steps

namespace Minicore

open Statement (AllReadable)

/-! ## Pieces as steps -/

/-- The step for a piece; only an expression has a result, the cell of its value. -/
def Generator.step : Piece → Gen (Option Cell)
  | .program n => do
    let _ ← program n
    return none
  | .statement n => do
    let _ ← statement n
    return none
  | .expression n => do
    let c ← expression n
    return some c

/-- A step whose result is only turned into another. -/
theorem Gen.bind_pure {α β : Type} (m : Gen α) (f : α → β) (names : Names) :
    (m >>= fun a => Pure.pure (f a)) names =
      ⟨(m names).result.map f, (m names).names, (m names).emission⟩ := by
  rw [bind_apply]
  cases (m names).result with
  | error e => rfl
  | ok a =>
    show (⟨.ok (f a), (m names).names, (m names).emission ++ Emission.empty⟩ : Outcome β) = _
    rw [Emission.append_empty]
    rfl

namespace Generator

/-- What a generator answers to a piece: a fault, or for an expression the name of its cell. -/
def answer (g : Generator) (p : Piece) : Except TreeFault (Option Text) :=
  (g.run (step p)).1.map (Option.map Cell.name)

/-- The generator after a piece is the one after its step. -/
theorem perform_eq (g : Generator) (p : Piece) : g.perform p = (g.run (step p)).2 := by
  cases p <;> simp only [perform, run, step, Gen.bind_pure]

theorem answer_program (g : Generator) (n : Node) :
    g.answer (.program n) = (program n g.names).result.map fun _ => none := by
  simp only [answer, run, step, Gen.bind_pure]
  cases (program n g.names).result <;> rfl

end Generator

/-! ## Two runs -/

/-- The tables that are initialized somewhere in the tree. -/
def Node.Initializes (n : Node) (x : Text) : Prop :=
  ∃ size default, Node.tableInit x size default ∈ n.subnodes

theorem Node.Initializes.of_part {n c : Node} {x : Text} (hc : ∀ m ∈ c.subnodes, m ∈ n.subnodes)
    (h : c.Initializes x) : n.Initializes x := by
  obtain ⟨size, default, hmem⟩ := h
  exact ⟨size, default, hc _ hmem⟩

/-- A statement of a block or of a program is a part of it. -/
theorem Node.Initializes.of_statement {n s : Node} {ss : List Node} {x : Text}
    (hn : n.subnodes = n :: subnodesOf ss) (hs : s ∈ ss) (h : s.Initializes x) : n.Initializes x :=
  h.of_part fun _ hm => hn ▸ List.mem_cons_of_mem _ (Node.mem_subnodesOf.2 ⟨s, hs, hm⟩)

/-- Both have related results, or both the same fault. -/
inductive Agree {α : Type} (R : α → α → Prop) : Except TreeFault α → Except TreeFault α → Prop
  | ok {x y : α} : R x y → Agree R (.ok x) (.ok y)
  | error (e : TreeFault) : Agree R (.error e) (.error e)

/-- What the two outcomes have in common after steps at `a + k` and `b + k`. -/
structure Alongside {α : Type} (a b : Names) (T : Text → Prop) (R : α → α → Prop) (k : Names)
    (o o' : Outcome α) : Prop where
  result : Agree R o.result o'.result
  names : ∃ l : Names, l.temps = o.emission.temps.length ∧ o.names = a + (k + l) ∧ o'.names = b + (k + l)
  emission : o'.emission = o.emission.renumber a b
  initialized : ∀ x size default, .table x size default ∈ o.emission.declarations → T x

namespace Gen

variable {α β : Type} {a b : Names} {T : Text → Prop} {R : α → α → Prop} {R' : β → β → Prop}

/-- As far as one run has come from `a`, the other from `b`: from there the steps are alike. -/
def Alike (a b : Names) (T : Text → Prop) (R : α → α → Prop) (m m' : Gen α) : Prop :=
  ∀ k : Names, Alongside a b T R k (m (a + k)) (m' (b + k))

namespace Alike

/-- Where nothing is declared, no table is initialized. -/
theorem not_declared (x : Text) (size default : UInt16)
    (h : Declaration.table x size default ∈ ([] : List Declaration)) : T x :=
  absurd h List.not_mem_nil

theorem pure {x y : α} (h : R x y) : Alike a b T R (Pure.pure x) (Pure.pure y) :=
  fun _ => ⟨.ok h, ⟨Names.fresh, rfl, rfl, rfl⟩, rfl, not_declared⟩

theorem fail (e : TreeFault) : Alike a b T R (Gen.fail e) (Gen.fail e) :=
  fun _ => ⟨.error e, ⟨Names.fresh, rfl, rfl, rfl⟩, rfl, not_declared⟩

/-- **Chains**: both go on, or neither. -/
theorem bind {m m' : Gen α} {f f' : α → Gen β} (hm : Alike a b T R m m')
    (hf : ∀ x y, R x y → Alike a b T R' (f x) (f' y)) :
    Alike a b T R' (m >>= f) (m' >>= f') := by
  intro k
  have hfirst := hm k
  rw [bind_apply, bind_apply]
  generalize m (a + k) = o at hfirst ⊢
  generalize m' (b + k) = o' at hfirst ⊢
  obtain ⟨r, n, e⟩ := o
  obtain ⟨r', n', e'⟩ := o'
  obtain ⟨hresult, ⟨l, hl, rfl, rfl⟩, rfl, htables⟩ := hfirst
  cases hresult with
  | error fault => exact ⟨.error fault, ⟨l, hl, rfl, rfl⟩, rfl, htables⟩
  | @ok x y hxy =>
    obtain ⟨hresult₂, ⟨l₂, hl₂, hnames₂, hnames₂'⟩, hemission₂, htables₂⟩ := hf x y hxy (k + l)
    refine ⟨hresult₂, ⟨l + l₂, ?_, ?_, ?_⟩, ?_, fun z size default hd => ?_⟩
    · rw [Emission.temps_append, List.length_append, ← hl, ← hl₂]
      rfl
    · rw [hnames₂, Names.add_assoc]
    · rw [hnames₂', Names.add_assoc]
    · show e.renumber a b ++ (f' y (b + (k + l))).emission = _
      rw [hemission₂, Emission.renumber_append]
    · rcases List.mem_append.1 hd with hd | hd
      · exact htables z size default hd
      · exact htables₂ z size default hd

/-- A body that is renumbered. -/
theorem body {ss ss' : List Statement} (h : ss.map (Statement.renumber a b) = ss') :
    Alike a b T Eq (Gen.body ss) (Gen.body ss') := by
  refine fun _ => ⟨.ok rfl, ⟨Names.fresh, rfl, rfl, rfl⟩, ?_, not_declared⟩
  rw [← h]
  rfl

theorem declare_variable (x : Text) :
    Alike a b T Eq (Gen.declare (.variable x)) (Gen.declare (.variable x)) := by
  refine fun _ => ⟨.ok rfl, ⟨Names.fresh, rfl, rfl, rfl⟩, rfl, fun _ _ _ hd => ?_⟩
  cases List.mem_singleton.1 hd

theorem declare_table {x : Text} (hx : T x) (size default : UInt16) :
    Alike a b T Eq (Gen.declare (.table x size default)) (Gen.declare (.table x size default)) := by
  refine fun _ => ⟨.ok rfl, ⟨Names.fresh, rfl, rfl, rfl⟩, rfl, fun _ _ _ hd => ?_⟩
  cases List.mem_singleton.1 hd
  exact hx

/-- A label number is shifted. -/
theorem label : Alike a b T (fun n n' => n' = n + b.labels - a.labels) Gen.label Gen.label := by
  refine fun k => ⟨.ok ?_, ⟨⟨0, 1⟩, rfl, rfl, rfl⟩, rfl, not_declared⟩
  show b.labels + k.labels + 1 = a.labels + k.labels + 1 + b.labels - a.labels
  omega

/-- So is a temporary. -/
theorem temp (v : UInt16) :
    Alike a b T (fun c c' => c' = c.renumber a b) (Gen.temp v) (Gen.temp v) := by
  have hshift (k : Names) : b.temps + k.temps + 1 = a.temps + k.temps + 1 + b.temps - a.temps := by
    omega
  refine fun k => ⟨.ok (congrArg Cell.temp (hshift k)), ⟨⟨1, 0⟩, rfl, rfl, rfl⟩, ?_, not_declared⟩
  exact congrArg (fun n => (⟨[], [(n, v)], []⟩ : Emission)) (hshift k)

theorem identifier (t : Text) :
    Alike a b T (fun x x' => x = t ∧ x' = t) (Gen.identifier t) (Gen.identifier t) := by
  unfold Gen.identifier
  split
  · exact .pure ⟨rfl, rfl⟩
  · exact .fail _

theorem literal (t : Text) : Alike a b T Eq (Gen.literal t) (Gen.literal t) := by
  unfold Gen.literal
  split
  · exact .pure rfl
  · exact .fail _

end Alike

end Gen

open Gen (Alike)

/-! ## Expressions -/

section TreeWalk

variable {a b : Names} {T : Text → Prop}

theorem alike_operate (op : Operator) : Alike a b T Eq (operate op) (operate op) := by
  have hcompare : ∀ jump : Opcode, Alike a b T Eq
      (Gen.label >>= fun n => Gen.body (Code.compare jump n))
      (Gen.label >>= fun n => Gen.body (Code.compare jump n)) := by
    refine fun jump => Alike.label.bind ?_
    rintro n _ rfl
    exact .body (Code.renumber_compare a b jump n)
  cases op with
  | add => exact .body rfl
  | sub => exact .body rfl
  | mul => exact .body rfl
  | eq => exact hcompare .beq
  | lt => exact hcompare .bcc

/-- **Expressions** are alike, and their cells are renumbered. -/
theorem alike_expression : ∀ n : Node,
    Alike a b T (fun c c' => c' = c.renumber a b) (expression n) (expression n)
  | .ident x => (Alike.identifier x).bind fun y y' h => by
    obtain ⟨rfl, rfl⟩ := h
    exact .pure rfl
  | .intLit t => (Alike.literal t).bind fun v v' h => by
    cases h
    exact .temp v
  | .binary op left right => by
    rw [expression]
    refine (alike_expression left).bind fun l _ hl => (alike_expression right).bind fun r _ hr => ?_
    subst hl hr
    have hloads : Alike a b T Eq (Gen.body (Code.load0 l ++ Code.load3 r))
        (Gen.body (Code.load0 (l.renumber a b) ++ Code.load3 (r.renumber a b))) := .body (by simp)
    refine hloads.bind fun _ _ _ => (alike_operate op).bind fun _ _ _ =>
      (Alike.temp 0).bind fun c _ hc => ?_
    subst hc
    exact (Alike.body (Code.renumber_store a b c)).bind fun _ _ _ => .pure rfl
  | .program _ => .fail _
  | .block _ => .fail _
  | .scalarInit _ _ => .fail _
  | .tableInit _ _ _ => .fail _
  | .wait _ => .fail _
  | .scalarAssign _ _ => .fail _
  | .tableAssign _ _ _ => .fail _
  | .ifElse _ _ _ => .fail _
  | .whileLoop _ _ => .fail _
  | .exprStmt _ => .fail _

/-! ## Statements -/

theorem alike_targetName (target : Node) :
    Alike a b T Eq (targetName target) (targetName target) := by
  cases target with
  | ident x => exact .pure rfl
  | _ => exact .fail _

theorem alike_assignment (x : Text) (value : Node) :
    Alike a b T Eq (assignment x value) (assignment x value) := by
  have htarget : Alike a b T (fun c c' => c' = c.renumber a b) (declaredVariable x)
      (declaredVariable x) := by
    refine (Alike.identifier x).bind fun y y' h => ?_
    obtain ⟨rfl, rfl⟩ := h
    exact (Alike.declare_variable _).bind fun _ _ _ => .pure rfl
  refine (alike_expression value).bind fun source _ hs => htarget.bind fun target _ ht => ?_
  subst hs ht
  exact .body (Code.renumber_copy a b source target)

mutual

/-- **Statements** are alike. -/
theorem alike_statement : ∀ n : Node, (∀ x, n.Initializes x → T x) →
    Alike a b T Eq (statement n) (statement n)
  | .block ss, h => alike_statements ss fun _ hs x hx =>
    h x (hx.of_statement rfl hs)
  | .scalarInit x value, _ => alike_assignment x value
  | .scalarAssign target value, _ => (alike_targetName target).bind fun x x' hx => by
    subst hx
    exact alike_assignment x value
  | .tableInit x size default, h => by
    rw [statement]
    refine (Alike.identifier x).bind fun y y' hy => (Alike.literal size).bind fun n n' hn =>
      (Alike.literal default).bind fun v v' hv => ?_
    obtain ⟨rfl, rfl⟩ := hy
    subst hn hv
    exact .declare_table (h _ ⟨size, default, List.mem_cons_self⟩) n v
  | .tableAssign target index value, _ => by
    rw [statement]
    refine (alike_targetName target).bind fun x x' hx => (alike_expression index).bind fun i _ hi =>
      (alike_expression value).bind fun v _ hv => ?_
    subst hx hi hv
    have hbase := Code.renumber_base a b x
    exact .body (by simpa [Code.base] using hbase)
  | .wait t, _ => (Alike.literal t).bind fun d d' hd => by
    subst hd
    exact .body rfl
  | .ifElse condition consequence alternative, h => by
    rw [statement]
    have hconsequence : ∀ x, consequence.Initializes x → T x := fun x hx =>
      h x (hx.of_part fun _ hm => by cases alternative <;> simp [Node.subnodes, hm])
    have halternative : ∀ c ∈ alternative, ∀ x, c.Initializes x → T x := fun c hc x hx =>
      h x (hx.of_part fun _ hm => by
        rw [Option.mem_def.1 hc]
        simp [Node.subnodes, hm])
    refine (alike_expression condition).bind fun c _ hc => Alike.label.bind fun n _ hn => ?_
    subst hc hn
    have htest : Alike a b T Eq
        (Gen.body (Code.test c ++
          [Code.branch .bne ⟨if hasAlternative alternative then .alternative else .endIf, n⟩]))
        (Gen.body (Code.test (c.renumber a b) ++ [Code.branch .bne
          ⟨if hasAlternative alternative then .alternative else .endIf, n + b.labels - a.labels⟩])) :=
      .body (by simp [Label.renumber])
    exact htest.bind fun _ _ _ => (alike_innerBlock consequence hconsequence).bind fun _ _ _ =>
      (Alike.body (by simp [Label.renumber])).bind fun _ _ _ =>
      (alike_alternativePart n alternative halternative).bind fun _ _ _ =>
      .body (by simp [Label.renumber])
  | .whileLoop condition body, h => by
    rw [statement]
    have hbody : ∀ x, body.Initializes x → T x := fun x hx =>
      h x (hx.of_part fun _ hm => by simp [Node.subnodes, hm])
    refine Alike.label.bind fun n _ hn => ?_
    subst hn
    refine (Alike.body (by simp [Label.renumber])).bind fun _ _ _ =>
      (alike_expression condition).bind fun c _ hc => ?_
    subst hc
    exact (Alike.body (by simp [Label.renumber])).bind fun _ _ _ =>
      (alike_innerBlock body hbody).bind fun _ _ _ => .body (by simp [Label.renumber])
  | .exprStmt expr, _ => (alike_expression expr).bind fun _ _ _ => .pure rfl
  | .program _, _ => .fail _
  | .ident _, _ => .fail _
  | .intLit _, _ => .fail _
  | .binary _ _ _, _ => .fail _

theorem alike_innerBlock : ∀ n : Node, (∀ x, n.Initializes x → T x) →
    Alike a b T Eq (innerBlock n) (innerBlock n)
  | .block ss, h => alike_statements ss fun _ hs x hx =>
    h x (hx.of_statement rfl hs)
  | .program _, _ => .fail _
  | .scalarInit _ _, _ => .fail _
  | .tableInit _ _ _, _ => .fail _
  | .wait _, _ => .fail _
  | .scalarAssign _ _, _ => .fail _
  | .tableAssign _ _ _, _ => .fail _
  | .ifElse _ _ _, _ => .fail _
  | .whileLoop _ _, _ => .fail _
  | .exprStmt _, _ => .fail _
  | .ident _, _ => .fail _
  | .intLit _, _ => .fail _
  | .binary _ _ _, _ => .fail _

/-- The label in front of an alternative is shifted with its number. -/
theorem alike_alternativePart (n : Nat) : ∀ alternative : Option Node,
    (∀ c ∈ alternative, ∀ x, c.Initializes x → T x) →
    Alike a b T Eq (alternativePart n alternative)
      (alternativePart (n + b.labels - a.labels) alternative)
  | none, _ => .pure rfl
  | some c, h => by
    have hmark : Alike a b T Eq (Gen.body [Code.mark ⟨.alternative, n⟩])
        (Gen.body [Code.mark ⟨.alternative, n + b.labels - a.labels⟩]) :=
      .body (by simp [Label.renumber])
    have hchain := hmark.bind fun _ _ _ => alike_innerBlock c (h c rfl)
    cases c with
    | block ts =>
      cases ts with
      | nil => exact .pure rfl
      | cons t ts => exact hchain
    | _ => exact hchain

/-- Statements one behind another. -/
theorem alike_statements : ∀ ss : List Node, (∀ s ∈ ss, ∀ x, s.Initializes x → T x) →
    Alike a b T Eq (statements ss) (statements ss)
  | [], _ => .pure rfl
  | s :: ss, h => by
    rw [statements]
    obtain ⟨hs, hss⟩ := List.forall_mem_cons.1 h
    exact (alike_statement s hs).bind fun _ _ _ => alike_statements ss hss

end

/-! ## Pieces -/

theorem alike_program (n : Node) (h : ∀ x, n.Initializes x → T x) :
    Alike a b T Eq (program n) (program n) := by
  cases n with
  | program ss =>
    exact alike_statements ss fun _ hs x hx => h x (hx.of_statement rfl hs)
  | _ => exact .fail _

/-- **Pieces** are alike; the cell of an expression is renumbered. -/
theorem alike_step (p : Piece) (h : ∀ x, p.node.Initializes x → T x) :
    Alike a b T (fun r r' => r' = r.map (Cell.renumber a b)) (Generator.step p) (Generator.step p) := by
  cases p with
  | program n => exact (alike_program n h).bind fun _ _ _ => .pure rfl
  | statement n => exact (alike_statement n h).bind fun _ _ _ => .pure rfl
  | expression n =>
    refine (alike_expression n).bind fun c c' hc => ?_
    subst hc
    exact .pure rfl

/-- The step of a generator, beside the one from other counters. -/
theorem Generator.alongside (g : Generator) (p : Piece) (b : Names) :
    Alongside g.names b p.node.Initializes (fun r r' => r' = r.map (Cell.renumber g.names b))
      Names.fresh (Generator.step p g.names) (Generator.step p b) :=
  alike_step p (fun _ hx => hx) Names.fresh

end TreeWalk

/-! ## Streams -/

namespace Streams

/-- The streams after these lines, these temporaries and these declarations. -/
def gather (s : Streams) (lines : List Text) (temps : List (Text × Text)) (ds : List Declaration) :
    Streams :=
  ds.foldl declare { s with body := s.body ++ lines, temps := s.temps ++ temps }

theorem extend_eq_gather (s : Streams) (e : Emission) :
    s.extend e = s.gather (e.body.map bodyLine)
      (e.temps.map fun t => ((Cell.temp t.1).name, cellContent t.2)) e.declarations := rfl

@[simp] theorem body_gather (s : Streams) (lines : List Text) (temps : List (Text × Text))
    (ds : List Declaration) : (s.gather lines temps ds).body = s.body ++ lines := by
  rw [gather, foldl_declare]

@[simp] theorem temps_gather (s : Streams) (lines : List Text) (temps : List (Text × Text))
    (ds : List Declaration) : (s.gather lines temps ds).temps = s.temps ++ temps := by
  rw [gather, foldl_declare]

/-- A variable that is there is left alone. -/
theorem declare_variable {s : Streams} {x : Text} (h : (Cell.var x).name ∈ s.vars.keys) :
    s.declare (.variable x) = s := by
  rcases OrderedMap.entries_insertNew s.vars (Cell.var x).name (cellContent 0) with
    ⟨-, hsame⟩ | ⟨hnot, -⟩
  · rw [declare, hsame]
  · exact absurd h hnot

/-- A table that is there has its content replaced, and only that. -/
theorem declare_table {s : Streams} {x : Text} (h : tableName x ∈ s.tables.keys)
    (size default : UInt16) :
    ∃ before content after, s.tables.entries = before ++ (tableName x, content) :: after ∧
      tableName x ∉ before.map Prod.fst ∧
      s.declare (.table x size default) =
        { s with tables := ⟨before ++ (tableName x, tableContent size default) :: after⟩ } := by
  rcases OrderedMap.entries_insert s.tables (tableName x) (tableContent size default) with
    ⟨before, content, after, hentries, hbefore, hinsert⟩ | ⟨hnot, -⟩
  · refine ⟨before, content, after, hentries, hbefore, ?_⟩
    rw [declare, ← hinsert]
  · exact absurd h hnot

end Streams

/-! ## Cutting -/

theorem Gen.bind_assoc {α β γ : Type} (m : Gen α) (f : α → Gen β) (h : β → Gen γ) :
    (m >>= f >>= h) = (m >>= fun x => f x >>= h) := by
  funext names
  simp only [bind_apply]
  cases (m names).result with
  | error e => rfl
  | ok x =>
    cases hf : (f x (m names).names).result with
    | error e => simp only [hf]
    | ok y => simp only [hf, Emission.append_assoc]

/-- Statements one behind another are a chain of two steps. -/
theorem statements_append (ss ts : List Node) :
    statements (ss ++ ts) = (statements ss >>= fun _ => statements ts) := by
  induction ss with
  | nil =>
    funext names
    rw [statements, Gen.bind_apply]
    rfl
  | cons s ss ih => rw [List.cons_append, statements, statements, ih, Gen.bind_assoc]

/-- A generator for one program, in front of others. -/
theorem relay_program (start : Names) (n : Node) (rest : List (List Piece)) :
    relay start ([.program n] :: rest) =
      (Streams.empty.extend (program n start).emission :: (relay (program n start).names rest).1,
        (relay (program n start).names rest).2) := rfl

/-- **Cutting a program.**  If the first part has code, the two parts, generated one behind the other by
    two generators, give together what one generator gives for the whole, up to where the second part
    fails if it does; if the first part has none, the whole goes as far as the first part. -/
theorem relay_cut (start : Names) (ss ts : List Node) :
    let piece := fun ns => Piece.program (.program ns)
    let whole := relay start [[piece (ss ++ ts)]]
    let first := relay start [[piece ss]]
    let parts := relay start [[piece ss], [piece ts]]
    ((Generator.withNames start).answer (piece ss) = .ok none →
      (Generator.withNames start).answer (piece (ss ++ ts)) =
        (Generator.withNames first.2).answer (piece ts) ∧
      parts.1.flatMap Streams.body = whole.1.flatMap Streams.body ∧
      parts.1.flatMap Streams.temps = whole.1.flatMap Streams.temps ∧ parts.2 = whole.2) ∧
    ∀ e, (Generator.withNames start).answer (piece ss) = .error e →
      (Generator.withNames start).answer (piece (ss ++ ts)) = .error e ∧ whole = first := by
  intro piece whole first parts
  rcases h₁ : program (.program ss) start with ⟨result, mid, e₁⟩
  rcases h₂ : program (.program ts) mid with ⟨result₂, last, e₂⟩
  have hchain : program (.program (ss ++ ts)) start = _ := congrFun (statements_append ss ts) start
  have hss : statements ss start = ⟨result, mid, e₁⟩ := h₁
  have hts : statements ts mid = ⟨result₂, last, e₂⟩ := h₂
  rw [Gen.bind_apply, hss] at hchain
  have hfirst : first = ([Streams.empty.extend e₁], mid) := by
    rw [show first = _ from relay_program start _ _, h₁]
    rfl
  cases result with
  | error e =>
    have hwhole : whole = first := by
      rw [hfirst, show whole = _ from relay_program start _ _, hchain]
      rfl
    simp only [piece, Generator.answer_program, Generator.withNames, h₁, hchain]
    exact ⟨fun h => (nomatch h), fun f hf => ⟨hf, hwhole⟩⟩
  | ok u =>
    simp only [hts] at hchain
    have hwhole : whole = ([Streams.empty.extend (e₁ ++ e₂)], last) := by
      rw [show whole = _ from relay_program start _ _, hchain]
      rfl
    have hparts : parts = ([Streams.empty.extend e₁, Streams.empty.extend e₂], last) := by
      rw [show parts = _ from relay_program start _ _, h₁, relay_program, h₂]
      rfl
    rw [hwhole, hparts, hfirst]
    simp only [piece, Generator.answer_program, Generator.withNames, h₁, h₂, hchain]
    refine ⟨fun _ => ⟨trivial, ?_, ?_, trivial⟩, fun f hf => nomatch hf⟩
    · simp [Streams.body_extend]
    · simp [Streams.temps_extend]

/-! ## Other contexts -/

/-- What a piece contributes can be read, if its names are identifiers. -/
theorem readable_step {p : Piece} (h : p.node.WellNamed) (names : Names) :
    AllReadable (Generator.step p names).emission.body := by
  cases p with
  | program n =>
    rw [Generator.step, Gen.bind_pure]
    exact (keeps_program n h names).1.readable
  | statement n =>
    rw [Generator.step, Gen.bind_pure]
    exact (keeps_statement n h names).1.readable
  | expression n =>
    rw [Generator.step, Gen.bind_pure]
    exact (keeps_expression n names).1.readable

/-- The answers of two generators, when their steps are alike. -/
theorem answer_of_agree {g g' : Generator} {p : Piece}
    (h : Agree (fun r r' => r' = r.map (Cell.renumber g.names g'.names))
      (Generator.step p g.names).result (Generator.step p g'.names).result) :
    g'.answer p = (g.answer p).map (Option.map (g.names.renumber g'.names)) := by
  have hanswer (g : Generator) :
      g.answer p = (Generator.step p g.names).result.map (Option.map Cell.name) := rfl
  rw [hanswer, hanswer]
  generalize (Generator.step p g.names).result = r at h
  generalize (Generator.step p g'.names).result = r' at h
  cases h with
  | error e => rfl
  | @ok r r' hr =>
    subst hr
    cases r with
    | none => rfl
    | some c => exact congrArg (fun x => Except.ok (some x)) (renumber_cell _ _ c).symm

/-- **Independence of the context.**  Let the names of a piece be identifiers.  A generator adds body
    lines, temporaries and declarations for it and goes on numbering by some `k`; any other generator,
    whatever it has gathered and wherever it numbers, adds the same lines and temporaries with their
    numbers shifted by what its counters are ahead, makes the same declarations in the same order, goes
    on by the same `k`, and answers with the same fault or with the cell shifted likewise.  A
    declaration leaves a variable that is there alone, and of a table that is there it replaces the
    content only.  So a program may be cut anywhere between its statements (`relay_cut`). -/
theorem generation_of_context (p : Piece) (h : p.node.WellNamed) (g : Generator) :
    (∃ k lines temps ds,
      (g.perform p).names = g.names + k ∧ (g.perform p).streams = g.streams.gather lines temps ds ∧
      ∀ g' : Generator,
        g'.answer p = (g.answer p).map (Option.map (g.names.renumber g'.names)) ∧
        (g'.perform p).names = g'.names + k ∧
        (g'.perform p).streams = g'.streams.gather (lines.map (g.names.renumberLine g'.names))
          (temps.map fun t => (g.names.renumber g'.names t.1, t.2)) ds) ∧
    (∀ (s : Streams) (x : Text), (Cell.var x).name ∈ s.vars.keys → s.declare (.variable x) = s) ∧
    (∀ (s : Streams) (x : Text), tableName x ∈ s.tables.keys → ∀ size default : UInt16,
      ∃ before content after, s.tables.entries = before ++ (tableName x, content) :: after ∧
        tableName x ∉ before.map Prod.fst ∧
        s.declare (.table x size default) =
          { s with tables := ⟨before ++ (tableName x, Streams.tableContent size default) :: after⟩ }) ∧
    ∀ (start : Names) (ss ts : List Node),
      let piece := fun ns => Piece.program (.program ns)
      let whole := relay start [[piece (ss ++ ts)]]
      let first := relay start [[piece ss]]
      let parts := relay start [[piece ss], [piece ts]]
      ((Generator.withNames start).answer (piece ss) = .ok none →
        (Generator.withNames start).answer (piece (ss ++ ts)) =
          (Generator.withNames first.2).answer (piece ts) ∧
        parts.1.flatMap Streams.body = whole.1.flatMap Streams.body ∧
        parts.1.flatMap Streams.temps = whole.1.flatMap Streams.temps ∧ parts.2 = whole.2) ∧
      ∀ e, (Generator.withNames start).answer (piece ss) = .error e →
        (Generator.withNames start).answer (piece (ss ++ ts)) = .error e ∧ whole = first := by
  refine ⟨?_, fun s x => Streams.declare_variable, fun s x => Streams.declare_table, relay_cut⟩
  obtain ⟨k, -, hk, -⟩ := (g.alongside p g.names).names
  refine ⟨Names.fresh + k, _, _, _, (congrArg Generator.names (g.perform_eq p)).trans hk,
    congrArg Generator.streams (g.perform_eq p), fun g' => ?_⟩
  obtain ⟨hresult, ⟨l, -, hl, hl'⟩, hemission, -⟩ := g.alongside p g'.names
  -- the first run goes on by the same, whatever it is compared with
  have hsame : Names.fresh + l = Names.fresh + k := Names.add_left_cancel (hl.symm.trans hk)
  rw [hsame] at hl'
  refine ⟨answer_of_agree hresult, (congrArg Generator.names (g'.perform_eq p)).trans hl', ?_⟩
  rw [g'.perform_eq, Generator.run, Streams.extend_eq_gather, hemission]
  simp only [Emission.renumber, renumber_bodyLines _ _ (readable_step h g.names), List.map_map]
  refine congrArg (fun ts => Streams.gather _ _ ts _) (List.map_congr_left fun t _ => ?_)
  exact Prod.ext (renumber_cell _ _ (.temp t.1)).symm rfl

/-- A loop with a comparison, a variable and a table that are there already, and one that is not. -/
def countingLoop : Piece :=
  .statement (.whileLoop (.binary .lt (.ident ['i']) (.intLit ['5']))
    (.block [.assign ['i'] (.binary .add (.ident ['i']) (.intLit ['1'])), .tableInit ['t'] ['2'] ['7'],
      .assign ['j'] (.ident ['i'])]))

/-- Where the loop is generated: behind a label, with a variable and a table. -/
def besideLoop : Generator :=
  ⟨⟨["end_1".toList], [("temp_1".toList, "0x3".toList)], ⟨[("tab_t".toList, "0x1".toList)]⟩,
    ⟨[("var_i".toList, "0x0".toList)]⟩⟩, ⟨1, 1⟩⟩

theorem generation_of_countingLoop :
    (besideLoop.perform countingLoop).names = ⟨5, 3⟩ ∧
      ((Generator.withNames ⟨20, 0⟩).perform countingLoop).names = ⟨24, 2⟩ ∧
      ∃ lines, (besideLoop.perform countingLoop).streams.body = "end_1".toList :: lines ∧
        ((Generator.withNames ⟨20, 0⟩).perform countingLoop).streams.body =
          lines.map (Names.renumberLine ⟨1, 1⟩ ⟨20, 0⟩) := by
  have hnames : countingLoop.node.WellNamed := by decide
  obtain ⟨⟨k, lines, temps, ds, -, hstreams, hother⟩, -⟩ :=
    generation_of_context countingLoop hnames besideLoop
  obtain ⟨-, -, hstreams'⟩ := hother (.withNames ⟨20, 0⟩)
  refine ⟨by decide, by decide, lines, ?_, ?_⟩
  · rw [hstreams, Streams.body_gather]
    rfl
  · rw [hstreams', Streams.body_gather]
    rfl

end Minicore
