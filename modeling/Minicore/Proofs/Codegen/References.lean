/-
  REFERENCES — which names generated code asks for.

  Problem: an instruction that refers to a name is encoded only if some line defines the name.  The
  generator defines its own names itself; those it takes from the tree are there only if the tree
  declares them.

  1. **Own names** — labels, temporaries and the two constants: an emission that refers to one also
     defines it (`Provides`), so they may be counted as known.

  2. **Invariant** — `Mentions known xs ss`: apart from known names, the code `ss` refers to exactly the
     names `xs`.  It is closed under putting code together, so it goes along a derivation
     (`ExpressionCode.mentions`, `StatementCode.mentions`) with the names that the nodes need.

  3. **Needs** — a node needs the variables whose value it uses and the table that it assigns to, the
     display apart (`Node.mem_needs_iff`).  An expression alone needs nothing: its code, if any, is that
     of the operators in it.

  4. **Open trees** — a program refers to a name that it does not define exactly when its tree is open
     (`StatementCode.undefined_iff`).
-/
import Minicore.Proofs.Assembly.Outcome
import Minicore.Proofs.Codegen.Readable
import Minicore.Proofs.Meaning.Loading
import Minicore.Tree.Footprint

namespace Minicore

open Statement (names references)

/-! ## What nodes need -/

namespace Node

/-- The name of the cell that an expression is the value of, if it is a variable. -/
def varName (n : Node) : List Text := n.ident?.toList.map fun x => (Cell.var x).name

/-- The names that the code of the node itself takes from the tree. -/
def needsHere (m : Node) : List Text :=
  m.operands.flatMap varName ++ (m.tableTarget?.toList.filter (· ≠ screenName)).map tableName

/-- The names that the code of the tree takes from the tree. -/
def needs (n : Node) : List Text := n.subnodes.flatMap needsHere

/-- They are those of the variables that are read and of the tables that are assigned to. -/
theorem mem_needs_iff (n : Node) (x : Text) : x ∈ n.needs ↔
    (∃ y ∈ n.reads, x = (Cell.var y).name) ∨
      ∃ y ∈ n.tableTargets, y ≠ screenName ∧ x = tableName y := by
  simp only [needs, needsHere, varName, reads, tableTargets, collect, List.mem_flatMap,
    List.mem_append, List.mem_map, List.mem_filter, List.mem_filterMap, Option.mem_toList,
    decide_eq_true_eq]
  constructor
  · rintro ⟨m, hm, ⟨v, hv, y, hy, rfl⟩ | ⟨y, ⟨hy, hscreen⟩, rfl⟩⟩
    · exact .inl ⟨y, ⟨m, hm, v, hv, hy⟩, rfl⟩
    · exact .inr ⟨y, ⟨m, hm, hy⟩, hscreen, rfl⟩
  · rintro (⟨y, ⟨m, hm, v, hv, hy⟩, rfl⟩ | ⟨y, ⟨m, hm, hy⟩, hscreen, rfl⟩)
    · exact ⟨m, hm, .inl ⟨v, hv, y, hy, rfl⟩⟩
    · exact ⟨m, hm, .inr ⟨y, ⟨hy, hscreen⟩, rfl⟩⟩

/-! ### Needs of compound nodes -/

section Needs

variable (x : Text) (s condition consequence alternative body value index left right : Node)
  (ss : List Node)

attribute [local simp] needs subnodes subnodesOf needsHere operands tableTarget?

theorem needs_nil : (block []).needs = [] := rfl

theorem needs_cons : (block (s :: ss)).needs = s.needs ++ (block ss).needs := by
  simp

theorem needs_assign {n : Node} (h : n.Assigns x value) : n.needs = value.varName ++ value.needs := by
  rcases h with rfl | rfl <;> simp

theorem needs_tableAssign : (tableAssign (.ident x) index value).needs =
    index.varName ++ (value.varName ++ (([x].filter (· ≠ screenName)).map tableName ++
      (index.needs ++ value.needs))) := by
  simp

theorem needs_ifThen : (ifElse condition consequence none).needs =
    condition.varName ++ (condition.needs ++ consequence.needs) := by
  simp

theorem needs_ifElse : (ifElse condition consequence (some alternative)).needs =
    condition.varName ++ (condition.needs ++ (consequence.needs ++ alternative.needs)) := by
  simp

theorem needs_whileLoop : (whileLoop condition body).needs =
    condition.varName ++ (condition.needs ++ body.needs) := by
  simp

theorem needs_exprStmt : (exprStmt s).needs = s.needs := by
  simp

theorem needs_binary (op : Operator) : (binary op left right).needs =
    left.varName ++ (right.varName ++ (left.needs ++ right.needs)) := by
  simp

end Needs

end Node

/-! ## Known names -/

namespace Cell

/-- A variable is taken from the tree. -/
def needs : Cell → List Text
  | .var x => [(Cell.var x).name]
  | _ => []

/-- Any other cell has a known name. -/
def Known (known : List Text) : Cell → Prop
  | .var _ => True
  | c => c.name ∈ known

end Cell

/-- What the emission defines is known, and so are the constants. -/
structure Provides (known : List Text) (e : Emission) : Prop where
  zero : Cell.zero.name ∈ known
  one : Cell.one.name ∈ known
  labels : ∀ x ∈ names e.body, x ∈ known
  temps : ∀ d ∈ e.temps, (Cell.temp d.1).name ∈ known
  vars : ∀ x, .variable x ∈ e.declarations → (Cell.var x).name ∈ known

namespace Provides

variable {known : List Text} {a b : Emission}

theorem left (h : Provides known (a ++ b)) : Provides known a := by
  refine ⟨h.zero, h.one, fun x hx => h.labels x ?_, fun d hd => h.temps d (List.mem_append_left _ hd),
    fun x hx => h.vars x (List.mem_append_left _ hx)⟩
  rw [Emission.body_append, Statement.names_append]
  exact List.mem_append_left _ hx

theorem right (h : Provides known (a ++ b)) : Provides known b := by
  refine ⟨h.zero, h.one, fun x hx => h.labels x ?_, fun d hd => h.temps d (List.mem_append_right _ hd),
    fun x hx => h.vars x (List.mem_append_right _ hx)⟩
  rw [Emission.body_append, Statement.names_append]
  exact List.mem_append_right _ hx

/-- The label of a mark is known. -/
theorem mark {ss : List Statement} {l : Label} (h : Provides known (.code ss))
    (hl : Code.mark l ∈ ss) : l.name ∈ known :=
  h.labels _ (List.mem_filterMap.2 ⟨_, hl, rfl⟩)

end Provides

/-! ## Code that mentions names -/

/-- Apart from known names, the code refers to exactly these names. -/
def Mentions (known xs : List Text) (ss : List Statement) : Prop :=
  ∀ x, x ∉ known → (x ∈ references ss ↔ x ∈ xs)

namespace Mentions

variable {known xs ys : List Text} {ss ts : List Statement} {c : Cell} {l m : Label} {op : Opcode}

/-- Only which names they are matters. -/
theorem congr (h : Mentions known xs ss) (hxy : ∀ x, x ∈ xs ↔ x ∈ ys) : Mentions known ys ss :=
  fun x hx => (h x hx).trans (hxy x)

theorem append (hs : Mentions known xs ss) (ht : Mentions known ys ts) :
    Mentions known (xs ++ ys) (ss ++ ts) := by
  intro x hx
  rw [Statement.references_append, List.mem_append, List.mem_append, hs x hx, ht x hx]

/-- All references are to known names. -/
theorem of_known (h : ∀ x ∈ references ss, x ∈ known) : Mentions known [] ss := by
  intro x hx
  refine ⟨fun hmem => absurd (h x hmem) hx, fun hmem => ?_⟩
  cases hmem

/-- There are no references. -/
theorem of_none (h : references ss = []) : Mentions known [] ss :=
  of_known fun x hx => by
    rw [h] at hx
    cases hx

/-- The only reference is to a cell. -/
theorem of_cell (hss : references ss = [c.name]) (hc : c.Known known) :
    Mentions known c.needs ss := by
  intro x hx
  rw [hss]
  cases c with
  | var y => rfl
  | _ =>
    refine ⟨fun hmem => ?_, fun hmem => nomatch hmem⟩
    rw [List.mem_singleton.1 hmem] at hx
    exact absurd hc hx

theorem test (hc : c.Known known) (hl : l.name ∈ known) :
    Mentions known c.needs (Code.test c ++ [Code.branch op l]) := by
  have hload : Mentions known c.needs (Code.test c) := .of_cell rfl hc
  have hbranch : Mentions known [] [Code.branch op l] := .of_known fun x hx => by
    rw [List.mem_singleton.1 hx]
    exact hl
  have happend := hload.append hbranch
  rwa [List.append_nil] at happend

theorem jump (hl : l.name ∈ known) : Mentions known [] [Code.branch op l, Code.mark m] :=
  .of_known fun x hx => by
    rw [List.mem_singleton.1 hx]
    exact hl

theorem mark : Mentions known [] [Code.mark l] := .of_none rfl

end Mentions

/-! ## Expressions -/

section Derivations

variable {known : List Text} {n : Node} {n₀ n₁ : Names} {c : Cell} {e : Emission}
  {ks : List (Nat × UInt16)}

/-- The cell of an expression is a variable or one of its temporaries. -/
theorem ExpressionCode.known_cell (h : ExpressionCode n n₀ c n₁ e ks) (hp : Provides known e) :
    c.Known known := by
  cases h with
  | ident _ => trivial
  | intLit _ => exact hp.temps _ List.mem_cons_self
  | binary _ _ => exact hp.right.right.temps _ List.mem_cons_self

/-- It is a variable when the expression is one. -/
theorem ExpressionCode.needs_cell (h : ExpressionCode n n₀ c n₁ e ks) :
    c.needs = n.varName := by
  cases h <;> rfl

/-- An operator refers to its own labels and to the constants. -/
theorem mentions_operatorCode {op : Operator} {k : Nat} (hzero : Cell.zero.name ∈ known)
    (hone : Cell.one.name ∈ known) (hlabels : ∀ x ∈ names (operatorCode op k), x ∈ known) :
    Mentions known [] (operatorCode op k) := by
  have hcompare : ∀ jump : Opcode, (∀ x ∈ names (Code.compare jump k), x ∈ known) →
      Mentions known [] (Code.compare jump k) := by
    intro jump hlabels
    refine .of_known fun x hx => ?_
    have hfour : x ∈ [Label.name ⟨.holds, k⟩, Cell.zero.name, Label.name ⟨.join, k⟩, Cell.one.name] := hx
    simp only [List.mem_cons, List.not_mem_nil, or_false] at hfour
    rcases hfour with rfl | rfl | rfl | rfl
    · exact hlabels _ List.mem_cons_self
    · exact hzero
    · exact hlabels _ (List.mem_cons_of_mem _ List.mem_cons_self)
    · exact hone
  cases op with
  | add => exact .of_none rfl
  | sub => exact .of_none rfl
  | mul => exact .of_none rfl
  | eq => exact hcompare .beq hlabels
  | lt => exact hcompare .bcc hlabels

/-- **Expressions** need the variables that their operators read. -/
theorem ExpressionCode.mentions (h : ExpressionCode n n₀ c n₁ e ks) (hp : Provides known e) :
    Mentions known n.needs e.body := by
  induction h with
  | ident _ => exact .of_none rfl
  | intLit _ => exact .of_none rfl
  | @binary op left right n₀ n₁ n₂ l r a b ks ls hl hr ihl ihr =>
    have hload0 : Mentions known l.needs (Code.load0 l) := .of_cell rfl (hl.known_cell hp.left)
    have hload3 : Mentions known r.needs (Code.load3 r) := .of_cell rfl (hr.known_cell hp.right.left)
    have hop : Mentions known [] (operatorCode op (n₂.labels + 1)) :=
      mentions_operatorCode hp.zero hp.one fun x hx => hp.right.right.labels x <| by
        -- the loads and the store define no names
        show x ∈ names (operatorCode op _ ++ Code.store _)
        rw [Statement.names_append]
        exact List.mem_append_left _ hx
    have hstore : Mentions known [] (Code.store (.temp (n₂.temps + 1))) :=
      .of_cell (c := .temp (n₂.temps + 1)) rfl (hp.right.right.temps _ List.mem_cons_self)
    refine ((ihl hp.left).append ((ihr hp.right.left).append
      (hload0.append (hload3.append (hop.append hstore))))).congr fun x => ?_
    rw [Node.needs_binary, hl.needs_cell, hr.needs_cell]
    simp only [List.mem_append, List.not_mem_nil, or_false]
    exact Iff.of_eq (by ac_rfl)

/-! ## Statements -/

/-- A table that is not the display is referred to by its name. -/
theorem mentions_base (x : Text) :
    Mentions known (([x].filter (· ≠ screenName)).map tableName) [Code.base x] := by
  intro y _
  by_cases hx : x = screenName
  · simp [hx, Code.base, tableBase, references, Statement.reference?]
  · simp [hx, Code.base, tableBase, references, Statement.reference?]

/-- **Statements** need the variables that they and their expressions read, and their tables. -/
theorem StatementCode.mentions (h : StatementCode n n₀ n₁ e ks) (hp : Provides known e) :
    Mentions known n.needs e.body := by
  induction h with
  | nil => exact .of_none rfl
  | cons _ _ ihs ihss =>
    rw [Node.needs_cons]
    exact (ihs hp.left).append (ihss hp.right)
  | @assign n value x _ _ c _ _ hn _ hc =>
    -- the target is declared along with the assignment
    have htarget : (Cell.var x).name ∈ known := hp.right.vars x List.mem_cons_self
    have hload : Mentions known c.needs (Code.load0 c) := .of_cell rfl (hc.known_cell hp.left)
    have hstore : Mentions known [] (Code.store (.var x)) := .of_known fun y hy => by
      rw [List.mem_singleton.1 hy]
      exact htarget
    refine ((hc.mentions hp.left).append (hload.append hstore)).congr fun y => ?_
    rw [Node.needs_assign _ _ hn, hc.needs_cell]
    simp only [List.mem_append, List.not_mem_nil, or_false]
    exact Iff.of_eq (by ac_rfl)
  | tableInit _ _ _ => exact .of_none rfl
  | @tableAssign x index value _ _ _ i v a b _ _ hi hv =>
    have hloadv : Mentions known v.needs (Code.load3 v) := .of_cell rfl (hv.known_cell hp.right.left)
    have hloadi : Mentions known i.needs (Code.load0 i) := .of_cell rfl (hi.known_cell hp.left)
    have hstore : Mentions known [] [Code.plain .addp, Code.plain .str3] := .of_none rfl
    refine ((hi.mentions hp.left).append ((hv.mentions hp.right.left).append
      ((hloadv.append hloadi).append ((mentions_base x).append hstore)))).congr fun y => ?_
    rw [Node.needs_tableAssign, hi.needs_cell, hv.needs_cell]
    simp only [List.mem_append, List.not_mem_nil, or_false]
    exact Iff.of_eq (by ac_rfl)
  | wait _ => exact .of_none rfl
  | @ifThen condition ss alternative _ n₁ _ c a b _ _ hnone hc _ ih =>
    have hend := hp.right.right.right.mark (l := ⟨.endIf, n₁.labels + 1⟩) (by simp)
    have hneeds : (Node.ifElse condition (.block ss) alternative).needs =
        condition.varName ++ (condition.needs ++ (Node.block ss).needs) := by
      rcases hnone with rfl | rfl
      · exact Node.needs_ifThen _ _
      · rw [Node.needs_ifElse, Node.needs_nil, List.append_nil]
    refine ((hc.mentions hp.left).append ((Mentions.test (hc.known_cell hp.left) hend).append
      ((ih hp.right.right.left).append (.jump hend)))).congr fun y => ?_
    rw [hneeds, hc.needs_cell]
    simp only [List.mem_append, List.not_mem_nil, or_false]
    exact Iff.of_eq (by ac_rfl)
  | @ifElse _ _ _ _ _ n₁ _ _ _ _ _ _ _ _ _ hc _ _ ihss ihts =>
    have hother := hp.right.right.right.left.mark (l := ⟨.alternative, n₁.labels + 1⟩) (by simp)
    have hend := hp.right.right.right.right.right.mark (l := ⟨.endIf, n₁.labels + 1⟩) (by simp)
    refine ((hc.mentions hp.left).append ((Mentions.test (hc.known_cell hp.left) hother).append
      ((ihss hp.right.right.left).append ((Mentions.jump hend).append
        ((ihts hp.right.right.right.right.left).append .mark))))).congr fun y => ?_
    rw [Node.needs_ifElse, hc.needs_cell]
    simp only [List.mem_append, List.not_mem_nil, or_false]
    exact Iff.of_eq (by ac_rfl)
  | @whileLoop _ _ n₀ _ _ _ _ _ _ _ hc _ ih =>
    have hloop := hp.left.mark (l := ⟨.loop, n₀.labels + 1⟩) (by simp)
    have hend := hp.right.right.right.right.mark (l := ⟨.endLoop, n₀.labels + 1⟩) (by simp)
    refine (Mentions.mark.append ((hc.mentions hp.right.left).append
      ((Mentions.test (hc.known_cell hp.right.left) hend).append
        ((ih hp.right.right.right.left).append (.jump hloop))))).congr fun y => ?_
    rw [Node.needs_whileLoop, hc.needs_cell]
    simp only [List.mem_append, List.not_mem_nil, or_false, false_or]
    exact Iff.of_eq (by ac_rfl)
  | exprStmt hc =>
    rw [Node.needs_exprStmt]
    exact hc.mentions hp

/-! ## Programs -/

/-- A program defines the names of the variables that its tree assigns to, and of no others. -/
theorem StatementCode.var_mem_names_iff (h : StatementCode n n₀ n₁ e ks) (x : Text) :
    (Cell.var x).name ∈ names e.program ↔ x ∈ n.assigned := by
  constructor
  · intro hx
    obtain ⟨st, hst, hname⟩ := List.mem_filterMap.1 hx
    obtain ⟨values, -, hdeclares⟩ := h.declares_of_mem (p := .cell (.var x)) hst hname
    cases hdeclares with
    | var hmem =>
      obtain ⟨y, hy, heq⟩ := (h.mem_varNames_iff _).1 hmem
      rw [Cell.var.inj (Cell.name_injective heq)]
      exact hy
  · intro hx
    have hvar : Declares e (.cell (.var x)) [0] := .var ((h.mem_varNames_iff _).2 ⟨x, hx, rfl⟩)
    exact List.mem_filterMap.2 ⟨_, hvar.mem, rfl⟩

/-- The same for tables and their declarations. -/
theorem StatementCode.table_mem_names_iff (h : StatementCode n n₀ n₁ e ks) (x : Text) :
    tableName x ∈ names e.program ↔ x ∈ n.tables.keys := by
  have hkeys : x ∈ n.tables.keys ↔ OrderedMap.find? n.tables x ≠ none := by
    rw [ne_eq, OrderedMap.find?_eq_none_iff, not_not]
  rw [hkeys]
  constructor
  · intro hx
    obtain ⟨st, hst, hname⟩ := List.mem_filterMap.1 hx
    obtain ⟨values, -, hdeclares⟩ := h.declares_of_mem (p := .entry x 0) hst hname
    cases hdeclares with
    | table hfind =>
      intro hnone
      rw [h.find?_tables, hnone] at hfind
      cases hfind
  · intro hx
    obtain ⟨d, hd⟩ := Option.ne_none_iff_exists'.1 hx
    have htable : Declares e (.entry x 0) (List.replicate d.1.toNat d.2) :=
      .table (by rw [h.find?_tables, hd]; rfl)
    exact List.mem_filterMap.2 ⟨_, htable.mem, rfl⟩

/-- A program knows the names of its own emission. -/
theorem Emission.provides (e : Emission) : Provides (names e.program) e := by
  have hmem : ∀ {st : Statement} {x : Text}, st ∈ e.program → st.name? = some x →
      x ∈ names e.program := fun hst hx => List.mem_filterMap.2 ⟨_, hst, hx⟩
  refine ⟨hmem (Declares.zero (e := e)).mem rfl, hmem (Declares.one (e := e)).mem rfl, ?_, ?_, ?_⟩
  · intro x hx
    rw [Emission.program, Statement.names_append]
    exact List.mem_append_left _ hx
  · exact fun d hd => hmem (Declares.temp hd).mem rfl
  · intro x hx
    have hvar : (Cell.var x).name ∈ e.varNames := by
      rw [Emission.varNames, List.mem_eraseDups]
      exact List.mem_filterMap.2 ⟨_, hx, rfl⟩
    exact hmem (Declares.var hvar).mem rfl

/-- Behind the body only the halt loop refers to a name. -/
theorem references_program (e : Emission) : references e.program = references e.body ++ [haltName] := by
  have hcells : references e.cells = [] := by
    refine List.filterMap_eq_nil_iff.2 fun st hst => ?_
    obtain ⟨x, values, rfl⟩ := Emission.eq_data_of_mem_cells hst
    rfl
  rw [Emission.program, Statement.references_append, Statement.references_append, hcells]
  rfl

/-- **Undefined names**: a program refers to a name that it does not define exactly when its tree is
    open. -/
theorem StatementCode.undefined_iff (h : StatementCode n n₀ n₁ e ks) :
    (∃ x ∈ references e.program, x ∉ names e.program) ↔ n.Open := by
  have hhalt : haltName ∈ names e.program := by
    rw [names_program]
    simp
  have hneeds : (∃ x ∈ references e.program, x ∉ names e.program) ↔
      ∃ x ∈ n.needs, x ∉ names e.program := by
    refine exists_congr fun x => and_congr_left fun hx => ?_
    rw [references_program, List.mem_append, List.mem_singleton, h.mentions e.provides x hx]
    exact or_iff_left fun heq => hx (heq ▸ hhalt)
  rw [hneeds, Node.Open]
  constructor
  · rintro ⟨x, hx, hundefined⟩
    rcases (n.mem_needs_iff x).1 hx with ⟨y, hy, rfl⟩ | ⟨y, hy, hscreen, rfl⟩
    · exact .inl ⟨y, hy, fun hassigned => hundefined ((h.var_mem_names_iff y).2 hassigned)⟩
    · exact .inr ⟨y, hy, hscreen, fun hkeys => hundefined ((h.table_mem_names_iff y).2 hkeys)⟩
  · rintro (⟨y, hy, hnot⟩ | ⟨y, hy, hscreen, hnot⟩)
    · exact ⟨_, (n.mem_needs_iff _).2 (.inl ⟨y, hy, rfl⟩), fun hmem => hnot ((h.var_mem_names_iff y).1 hmem)⟩
    · exact ⟨_, (n.mem_needs_iff _).2 (.inr ⟨y, hy, hscreen, rfl⟩),
        fun hmem => hnot ((h.table_mem_names_iff y).1 hmem)⟩

end Derivations

end Minicore
