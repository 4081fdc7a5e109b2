/-
  DECLARATIONS of a program — each thing that its tree calls for, once.

  Problem: declarations are gathered while the tree is walked, and a subtree that is walked twice, or not
  at all, or too early, shows in them: a temporary too many, a number out of place, a table with the
  wrong content.  What the streams hold should follow from the tree alone.

  1. **Program** — the tree is read twice: `Node.postorder` lists its nodes with every node behind the
     nodes in it, which is the order of evaluation; `Node.subnodes` in the order in which they stand.

  2. **Specification** — `DeclaredBy`: one temporary for each number and each operator in post-order,
     numbered from one on; each assigned variable once; each initialized table once, with the content of
     its last initialization.  The counters end with the number of temporaries and with the number of
     conditionals, loops and comparisons (`declarations_of_program`).

  3. **Streams and counters** — the three streams of declarations are known for a derivation already; new
     is the order of the temporaries (`contents_eq`) and the growth of the labels (`labels_eq`), both by
     induction on the derivation.
-/
import Minicore.Proofs.Codegen.Acceptance
import Minicore.Proofs.Codegen.Footprint
import Minicore.Proofs.Linking.Layout

namespace Minicore

namespace Node

/-! ## The tree in the order of evaluation -/

mutual

/-- The nodes of a tree, the nodes in a node before it: the target, the index, then the value of an
    assignment, and the condition before the branches. -/
def postorder : Node → List Node
  | .program ss => postorderOf ss ++ [.program ss]
  | .block ss => postorderOf ss ++ [.block ss]
  | .scalarInit x value => value.postorder ++ [.scalarInit x value]
  | .tableInit x size default => [.tableInit x size default]
  | .wait t => [.wait t]
  | .scalarAssign target value =>
    target.postorder ++ (value.postorder ++ [.scalarAssign target value])
  | .tableAssign target index value =>
    target.postorder ++ (index.postorder ++ (value.postorder ++ [.tableAssign target index value]))
  | .ifElse condition consequence none =>
    condition.postorder ++ (consequence.postorder ++ [.ifElse condition consequence none])
  | .ifElse condition consequence (some alternative) =>
    condition.postorder ++ (consequence.postorder ++ (alternative.postorder ++
      [.ifElse condition consequence (some alternative)]))
  | .whileLoop condition body =>
    condition.postorder ++ (body.postorder ++ [.whileLoop condition body])
  | .exprStmt expr => expr.postorder ++ [.exprStmt expr]
  | .ident x => [.ident x]
  | .intLit t => [.intLit t]
  | .binary op left right => left.postorder ++ (right.postorder ++ [.binary op left right])

/-- The nodes of several trees, tree by tree. -/
def postorderOf : List Node → List Node
  | [] => []
  | n :: rest => n.postorder ++ postorderOf rest

end

/-- What the temporary of a node holds at the start: a number its value, an operator zero. -/
def firstValue? : Node → Option UInt16
  | .intLit t => word? t
  | .binary _ _ _ => some 0
  | _ => none

/-- What the temporaries of a tree hold at the start, in the order of evaluation. -/
def contents (n : Node) : List (Option UInt16) :=
  (n.postorder.filter takesTemporary).map firstValue?

/-- The node needs places to branch to. -/
def takesLabel : Node → Bool
  | .ifElse _ _ _ => true
  | .whileLoop _ _ => true
  | .binary .eq _ _ => true
  | .binary .lt _ _ => true
  | _ => false

/-- The number of conditionals, loops and comparisons. -/
def labels (n : Node) : Nat := n.subnodes.countP takesLabel

section Contents

variable (s condition consequence alternative body value index left right : Node) (ss : List Node)

attribute [local simp] contents postorder postorderOf takesTemporary firstValue?

theorem contents_cons : (block (s :: ss)).contents = s.contents ++ (block ss).contents := by
  simp

theorem contents_assign {n : Node} {x : Text} (h : n.Assigns x value) : n.contents = value.contents := by
  rcases h with rfl | rfl <;> simp

theorem contents_tableAssign (x : Text) :
    (tableAssign (.ident x) index value).contents = index.contents ++ value.contents := by
  simp

theorem contents_ifThen :
    (ifElse condition consequence none).contents = condition.contents ++ consequence.contents := by
  simp

theorem contents_ifElse : (ifElse condition consequence (some alternative)).contents =
    condition.contents ++ (consequence.contents ++ alternative.contents) := by
  simp

theorem contents_whileLoop : (whileLoop condition body).contents =
    condition.contents ++ body.contents := by
  simp

theorem contents_exprStmt : (exprStmt s).contents = s.contents := by
  simp

theorem contents_binary (op : Operator) : (binary op left right).contents =
    left.contents ++ (right.contents ++ [some 0]) := by
  simp [List.filter_cons]

theorem contents_program : (program ss).contents = (block ss).contents := by
  simp

end Contents

/-! ## Counting labels -/

section Labels

variable (s condition consequence alternative body value index left right : Node) (ss : List Node)

attribute [local simp] labels subnodes subnodesOf takesLabel

end Labels

end Node

/-! ## Temporaries -/

section Derivations

variable {n : Node} {n₀ n₁ : Names} {c : Cell} {e : Emission} {ks : List (Nat × UInt16)}

/-- The contents of the temporaries that are emitted. -/
def Emission.contents (e : Emission) : List (Option UInt16) := e.temps.map fun d => some d.2

theorem Emission.contents_append (a b : Emission) : (a ++ b).contents = a.contents ++ b.contents :=
  List.map_append

theorem Emission.contents_code (ss : List Statement) : (Emission.code ss).contents = [] := rfl

theorem ExpressionCode.contents_eq (h : ExpressionCode n n₀ c n₁ e ks) : e.contents = n.contents := by
  induction h with
  | ident _ => rfl
  | intLit hw =>
    show [some _] = [Node.word? _]
    rw [hw]
  | binary _ _ ihl ihr =>
    rw [Node.contents_binary, Emission.contents_append, Emission.contents_append, ihl, ihr]
    rfl

/-- **Temporaries** come in the order of evaluation. -/
theorem StatementCode.contents_eq (h : StatementCode n n₀ n₁ e ks) : e.contents = n.contents := by
  induction h with
  | nil => rfl
  | cons _ _ ihs ihss => rw [Node.contents_cons, Emission.contents_append, ihs, ihss]
  | assign hn _ hc =>
    rw [Node.contents_assign _ hn, Emission.contents_append, hc.contents_eq]
    exact List.append_nil _
  | tableInit _ _ _ => rfl
  | tableAssign hi hv =>
    rw [Node.contents_tableAssign]
    simp only [Emission.contents_append, Emission.contents_code, List.append_nil, hi.contents_eq,
      hv.contents_eq]
  | wait _ => rfl
  | @ifThen condition ss alternative _ _ _ _ _ _ _ _ hnone hc _ ih =>
    have hcontents : (Node.ifElse condition (.block ss) alternative).contents =
        condition.contents ++ (Node.block ss).contents := by
      rcases hnone with rfl | rfl
      · exact Node.contents_ifThen _ _
      · rw [Node.contents_ifElse]
        exact congrArg _ (List.append_nil _)
    simp only [Emission.contents_append, Emission.contents_code, List.append_nil, List.nil_append,
      hc.contents_eq, ih, hcontents]
  | ifElse hc _ _ ihss ihts =>
    rw [Node.contents_ifElse]
    simp only [Emission.contents_append, Emission.contents_code, List.append_nil, List.nil_append,
      hc.contents_eq, ihss, ihts]
  | whileLoop hc _ ih =>
    rw [Node.contents_whileLoop]
    simp only [Emission.contents_append, Emission.contents_code, List.append_nil, List.nil_append,
      hc.contents_eq, ih]
  | exprStmt hc => rw [Node.contents_exprStmt, hc.contents_eq]

/-! ## Counters -/

end Derivations

/-! ## Tables -/

namespace Node

/-- The literals of a node itself. -/
def literals : Node → List Text
  | .intLit t => [t]
  | .tableInit _ size default => [size, default]
  | .wait t => [t]
  | _ => []

theorem mem_subnodesOf {m : Node} {ss : List Node} : m ∈ subnodesOf ss ↔ ∃ s ∈ ss, m ∈ s.subnodes := by
  induction ss with
  | nil => simp [subnodesOf]
  | cons s ss ih => simp [subnodesOf, ih]

end Node

theorem Grammar.Expression.literals {n : Node} (h : Grammar.Expression n) :
    ∀ m ∈ n.subnodes, ∀ t ∈ m.literals, Grammar.Literal t := by
  induction h with
  | ident _ => simp [Node.subnodes, Node.literals]
  | intLit ht => simpa [Node.subnodes, Node.literals] using ht
  | binary _ _ ihl ihr =>
    simp only [Node.subnodes, List.forall_mem_cons, List.forall_mem_append]
    exact ⟨fun t ht => (nomatch ht), ihl, ihr⟩

/-- **Literals**: every literal of a statement of the grammar, however deep, is a 16-bit decimal. -/
theorem Grammar.Statement.literals {n : Node} (h : Grammar.Statement n) :
    ∀ m ∈ n.subnodes, ∀ t ∈ m.literals, Grammar.Literal t := by
  have hnone : ∀ {t : Text}, t ∈ [] → Grammar.Literal t := fun ht => nomatch ht
  have hident : ∀ x, ∀ m ∈ (Node.ident x).subnodes, ∀ t ∈ m.literals, Grammar.Literal t := by
    simp [Node.subnodes, Node.literals]
  induction h with
  | block _ ih =>
    simp only [Node.subnodes, List.forall_mem_cons, Node.mem_subnodesOf]
    exact ⟨fun t => hnone, fun m ⟨s, hs, hm⟩ => ih s hs m hm⟩
  | scalarInit _ hv =>
    simp only [Node.subnodes, List.forall_mem_cons]
    exact ⟨fun t => hnone, hv.literals⟩
  | tableInit _ hs hd => simpa [Node.subnodes, Node.literals] using ⟨hs, hd⟩
  | wait ht => simpa [Node.subnodes, Node.literals] using ht
  | scalarAssign _ hv =>
    rw [Node.subnodes, List.forall_mem_cons, List.forall_mem_append]
    exact ⟨fun t => hnone, hident _, hv.literals⟩
  | tableAssign hi hv =>
    rw [Node.subnodes, List.forall_mem_cons, List.forall_mem_append, List.forall_mem_append]
    exact ⟨fun t => hnone, hident _, hi.literals, hv.literals⟩
  | ifThen hc _ ih =>
    rw [Node.subnodes, List.forall_mem_cons, List.forall_mem_append]
    exact ⟨fun t => hnone, hc.literals, ih⟩
  | ifElse hc _ _ ihss ihts =>
    rw [Node.subnodes, List.forall_mem_cons, List.forall_mem_append, List.forall_mem_append]
    exact ⟨fun t => hnone, hc.literals, ihss, ihts⟩
  | whileLoop hc _ ih =>
    rw [Node.subnodes, List.forall_mem_cons, List.forall_mem_append]
    exact ⟨fun t => hnone, hc.literals, ih⟩
  | exprStmt he =>
    simp only [Node.subnodes, List.forall_mem_cons]
    exact ⟨fun t => hnone, he.literals⟩

/-- The entries of the table stream. -/
theorem StatementCode.tables_extend {n : Node} {n₀ n₁ : Names} {e : Emission} {ks : List (Nat × UInt16)}
    (h : StatementCode n n₀ n₁ e ks) : (Streams.empty.extend e).tables.entries =
      n.tables.entries.map fun d => (tableName d.1, Streams.tableContent d.2.1 d.2.2) := by
  rw [Streams.tables_extend, h.tables_eq, List.map_map]
  refine List.map_congr_left fun d _ => ?_
  show (_, Statement.valuesText (List.replicate d.2.1.toNat d.2.2)) = _
  rw [Streams.tableContent, Statement.valuesText, List.map_replicate]
  rfl

/-- The table stream of a program is filled by its initializations. -/
theorem StatementCode.tables_program {ss : List Node} {n₀ n₁ : Names} {e : Emission}
    {ks : List (Nat × UInt16)} (h : StatementCode (.block ss) n₀ n₁ e ks) :
    (Streams.empty.extend e).tables = OrderedMap.ofList
      (((Node.program ss).collect Node.table?).map fun d =>
        (tableName d.1, Streams.tableContent d.2.1 d.2.2)) := by
  have hentries := h.tables_extend
  rw [← Node.tables_program, Node.tables] at hentries
  exact congrArg OrderedMap.mk (hentries.trans (OrderedMap.entries_ofList_rename
    (fun d : UInt16 × UInt16 => Streams.tableContent d.1 d.2)
    fun _ _ _ _ => tableName_injective).symm)

end Minicore
