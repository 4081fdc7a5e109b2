/-
  FOOTPRINT of generated code — the words of a program are those that its tree counts.

  Problem: code is emitted by many rules into four streams, and two of the streams drop repetitions.
  How many words come of it should be known without generating anything.

  1. **Body** — every rule emits as many instructions as the node costs (`StatementCode.words_body`), and
     a temporary where a number or an operator is (`StatementCode.length_temps`).

  2. **Declarations** — the streams of tables and variables are those of the tree, renamed: a table keeps
     the place of its first declaration and has the content of its last (`StatementCode.tables_eq`), a
     variable comes once (`StatementCode.varNames_eq`).

  3. **Program** — together, the footprint of the tree (`StatementCode.words_program`).
-/
import Minicore.Proofs.Meaning.Loading
import Minicore.Tree.Footprint

namespace Minicore

open Statement (words)

/-! ## Temporaries of compound nodes -/

namespace Node

section Temporaries

variable (s condition consequence alternative body value index left right : Node) (ss : List Node)

attribute [local simp] temporaries subnodes subnodesOf takesTemporary

theorem temporaries_cons :
    (block (s :: ss)).temporaries = s.temporaries + (block ss).temporaries := by
  simp

theorem temporaries_assign {n : Node} {x : Text} (h : n.Assigns x value) :
    n.temporaries = value.temporaries := by
  rcases h with rfl | rfl <;> simp

theorem temporaries_tableAssign (x : Text) : (tableAssign (.ident x) index value).temporaries =
    index.temporaries + value.temporaries := by
  simp

theorem temporaries_ifThen : (ifElse condition consequence none).temporaries =
    condition.temporaries + consequence.temporaries := by
  simp

theorem temporaries_ifElse : (ifElse condition consequence (some alternative)).temporaries =
    condition.temporaries + (consequence.temporaries + alternative.temporaries) := by
  simp

theorem temporaries_whileLoop : (whileLoop condition body).temporaries =
    condition.temporaries + body.temporaries := by
  simp

theorem temporaries_exprStmt : (exprStmt s).temporaries = s.temporaries := by
  simp

theorem temporaries_binary (op : Operator) : (binary op left right).temporaries =
    left.temporaries + right.temporaries + 1 := by
  simp [List.countP_cons]

end Temporaries

end Node

/-! ## The body -/

section Derivations

variable {n : Node} {n₀ n₁ : Names} {c : Cell} {e : Emission} {ks : List (Nat × UInt16)}

/-- The two loads, the operator and the store of an operator node. -/
theorem words_operatorCode (op : Operator) (k : Nat) : 6 + words (operatorCode op k) = op.cost := by
  cases op <;> rfl

theorem ExpressionCode.words_body (h : ExpressionCode n n₀ c n₁ e ks) : words e.body = n.cost := by
  induction h with
  | ident _ => rfl
  | intLit _ => rfl
  | @binary op left right n₀ n₁ n₂ l r a b ks ls _ _ ihl ihr =>
    have hop := words_operatorCode op (n₂.labels + 1)
    simp only [Emission.body_append, Statement.words_append, words_load0, words_load3, words_store, ihl,
      ihr, Node.cost]
    omega

/-- **Instructions**: the body is as long as the node costs. -/
theorem StatementCode.words_body (h : StatementCode n n₀ n₁ e ks) : words e.body = n.cost := by
  induction h with
  | nil => rfl
  | cons _ _ ihs ihss =>
    rw [Emission.body_append, Statement.words_append, ihs, ihss]
    rfl
  | assign hn _ hc =>
    rw [Emission.body_append, Statement.words_append, hc.words_body]
    rcases hn with rfl | rfl <;> rfl
  | tableInit _ _ _ => rfl
  | tableAssign hi hv =>
    simp only [Emission.body_append, Statement.words_append, body_code, words_tableStore, hi.words_body,
      hv.words_body, Node.cost]
    omega
  | wait _ => rfl
  | @ifThen condition ss alternative _ _ _ _ _ _ _ _ hnone hc _ ih =>
    have hcost : (Node.ifElse condition (.block ss) alternative).cost =
        condition.cost + 6 + (Node.block ss).cost := by
      rcases hnone with rfl | rfl <;> rfl
    simp only [Emission.body_append, Statement.words_append, Statement.words_cons, Statement.words_nil,
      body_code, words_test, width_branch, width_mark, hc.words_body, ih, hcost]
    omega
  | ifElse hc _ _ ihss ihts =>
    simp only [Emission.body_append, Statement.words_append, Statement.words_cons, Statement.words_nil,
      body_code, words_test, width_branch, width_mark, hc.words_body, ihss, ihts, Node.cost]
    omega
  | whileLoop hc _ ih =>
    simp only [Emission.body_append, Statement.words_append, Statement.words_cons, Statement.words_nil,
      body_code, words_test, width_branch, width_mark, hc.words_body, ih, Node.cost]
    omega
  | exprStmt hc => exact hc.words_body

theorem ExpressionCode.length_temps (h : ExpressionCode n n₀ c n₁ e ks) :
    e.temps.length = n.temporaries := by
  induction h with
  | ident _ => rfl
  | intLit _ => rfl
  | binary _ _ ihl ihr =>
    rw [Node.temporaries_binary, Emission.temps_append, Emission.temps_append, List.length_append,
      List.length_append, ihl, ihr]
    rfl

/-- **Temporaries**: one for each number and each operator. -/
theorem StatementCode.length_temps (h : StatementCode n n₀ n₁ e ks) :
    e.temps.length = n.temporaries := by
  have hcode : ∀ ss, (Emission.code ss).temps = [] := fun _ => rfl
  induction h with
  | nil => rfl
  | cons _ _ ihs ihss => rw [Node.temporaries_cons, Emission.temps_append, List.length_append, ihs, ihss]
  | assign hn _ hc =>
    rw [Node.temporaries_assign _ hn, Emission.temps_append, List.append_nil, hc.length_temps]
  | tableInit _ _ _ => rfl
  | tableAssign hi hv =>
    rw [Node.temporaries_tableAssign]
    simp only [Emission.temps_append, List.length_append, hcode, List.length_nil, hi.length_temps,
      hv.length_temps]
    omega
  | wait _ => rfl
  | @ifThen condition ss alternative _ _ _ _ _ _ _ _ hnone hc _ ih =>
    have hcount : (Node.ifElse condition (.block ss) alternative).temporaries =
        condition.temporaries + (Node.block ss).temporaries := by
      rcases hnone with rfl | rfl
      · exact Node.temporaries_ifThen _ _
      · rw [Node.temporaries_ifElse]
        rfl
    simp only [Emission.temps_append, List.length_append, hcode, List.length_nil, hc.length_temps, ih,
      hcount]
    omega
  | ifElse hc _ _ ihss ihts =>
    rw [Node.temporaries_ifElse]
    simp only [Emission.temps_append, List.length_append, hcode, List.length_nil, hc.length_temps, ihss,
      ihts]
    omega
  | whileLoop hc _ ih =>
    rw [Node.temporaries_whileLoop]
    simp only [Emission.temps_append, List.length_append, hcode, List.length_nil, hc.length_temps, ih]
    omega
  | exprStmt hc => rw [Node.temporaries_exprStmt, hc.length_temps]

/-! ## The declarations -/

/-- **Tables** are those of the tree, under their names in the code. -/
theorem StatementCode.tables_eq (h : StatementCode n n₀ n₁ e ks) : e.tables.entries =
    n.tables.entries.map fun d => (tableName d.1, List.replicate d.2.1.toNat d.2.2) := by
  have hpairs : e.declarations.filterMap Declaration.table? =
      (n.collect Node.table?).map fun d => (tableName d.1, List.replicate d.2.1.toNat d.2.2) := by
    rw [Node.collect_of_declaration Node.table?_eq, ← h.declarations_eq, List.map_filterMap]
    refine List.filterMap_congr fun d _ => ?_
    rcases d with y | ⟨y, size, default⟩ <;> rfl
  rw [Emission.tables, hpairs, Node.tables]
  exact OrderedMap.entries_ofList_rename (fun d : UInt16 × UInt16 => List.replicate d.1.toNat d.2)
    fun _ _ _ _ => tableName_injective

/-- **Variables** are those that the tree assigns to, each once, under their names in the code. -/
theorem StatementCode.varNames_eq (h : StatementCode n n₀ n₁ e ks) :
    e.varNames = n.scalars.map fun x => (Cell.var x).name := by
  have hcells : e.declarations.filterMap Declaration.cell? =
      n.assigned.map fun x => (Cell.var x).name := by
    rw [Node.assigned, Node.collect_of_declaration Node.assigned?_eq, ← h.declarations_eq,
      List.map_filterMap]
    refine List.filterMap_congr fun d _ => ?_
    rcases d with y | ⟨y, size, default⟩ <;> rfl
  rw [Emission.varNames, hcells, Node.scalars]
  exact OrderedMap.eraseDups_map (fun _ _ heq => Cell.var.inj (Cell.name_injective heq)) _

/-! ## The program -/

/-- The words of written declarations. -/
theorem words_data {α : Type} (f : α → Text) (g : α → List UInt16) (as : List α) :
    words (as.map fun a => .data (f a) (g a)) = (as.map fun a => (g a).length).sum := by
  rw [words, List.map_map]
  rfl

/-- **Words**: the program takes what its tree counts. -/
theorem StatementCode.words_program (h : StatementCode n n₀ n₁ e ks) :
    words e.program = n.footprint := by
  have htemps : words (e.temps.map fun d => .data (Cell.temp d.1).name [d.2]) = n.temporaries := by
    rw [words_data (fun d : Nat × UInt16 => (Cell.temp d.1).name) (fun d => [d.2]), ← h.length_temps]
    simp
  have htables : words (e.tables.entries.map fun d => .data d.1 d.2) = n.tableCells := by
    rw [words_data Prod.fst Prod.snd, h.tables_eq, List.map_map, Node.tableCells]
    simp only [Function.comp_def, List.length_replicate]
  have hvars : words (e.varNames.map fun x => .data x [0]) = n.scalars.length := by
    rw [words_data (fun x => x) (fun _ => [0]), h.varNames_eq, List.map_map]
    simp [Function.comp_def]
  have hfixed : words [.label haltName, .code .b (some (.symbol haltName))] = 1 := rfl
  have hconstants : words [.data Cell.one.name [1], .data Cell.zero.name [0]] = 2 := rfl
  simp only [Emission.program, Emission.cells, Statement.words_append, h.words_body, htemps, htables,
    hvars, hfixed, hconstants, Node.footprint]
  omega

end Derivations

end Minicore
