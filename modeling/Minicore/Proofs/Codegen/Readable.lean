/-
  READABLE CODE — every generated statement can be understood, and no name comes twice.

  Problem: names flow from the tree into the lines of the program.  The generator lets only identifiers
  through — except at ONE place, the target of a table assignment — and puts a word with an underscore
  in front of each.

  1. **Body** — every body statement is readable, except perhaps the one that loads the base of an
     assigned table (`StatementCode.readable`); with an identifier for the table that one is, too.

  2. **Declarations** — always readable (`StatementCode.readable_cells`): the names of declared
     variables and tables have been let through.

  3. **Names** — the names that a program defines are pairwise different
     (`StatementCode.nodup_names`): labels and temporaries by their numbers, tables and variables by
     the maps they are kept in, and different kinds by their stems.
-/
import Minicore.Proofs.Codegen.Fresh
import Minicore.Proofs.Codegen.ProgramText

namespace Minicore

/-! ## Readable instructions -/

namespace Code

/-- The instructions that are generated without a parameter. -/
def plainOpcodes : List Opcode := [.ldr0, .ldr3, .str0, .str3, .cmp, .addp, .add, .sub, .mul]

theorem readable_plain {op : Opcode} (h : op ∈ plainOpcodes) : (plain op).Readable := by
  have hall : ∀ op ∈ plainOpcodes, ∃ p operands, Catalog.standard.find? op = some p ∧
      p.slots.mapM (Slot.fill none) = some operands ∧
        operands.findSome? Operand.param? = none := by
    intro op hop
    simp only [plainOpcodes, List.mem_cons, List.not_mem_nil, or_false] at hop
    rcases hop with rfl | rfl | rfl | rfl | rfl | rfl | rfl | rfl | rfl <;>
      exact ⟨_, _, rfl, rfl, rfl⟩
  refine ⟨?_, hall op h⟩
  intro q hq
  cases hq

/-- The address register gets any number or symbol. -/
theorem readable_mov1 {p : Param} (h : p.writable = true) :
    (Statement.code .mov1 (some p)).Readable := by
  refine ⟨?_, _, _, rfl, rfl, rfl⟩
  intro q hq
  obtain rfl : p = q := Option.some.inj hq
  exact h

theorem readable_wait (d : UInt16) : (Statement.code .wait (some (.literal d))).Readable := by
  refine ⟨?_, _, _, rfl, rfl, rfl⟩
  intro q hq
  obtain rfl := Option.some.inj hq
  rfl

theorem readable_mov3 (v : UInt16) : (Statement.code .mov3 (some (.literal v))).Readable := by
  refine ⟨?_, _, _, rfl, rfl, rfl⟩
  intro q hq
  obtain rfl := Option.some.inj hq
  rfl

/-- The branches that are generated. -/
def branchOpcodes : List Opcode := [.b, .beq, .bne, .bcc]

theorem readable_branch {op : Opcode} (h : op ∈ branchOpcodes) {x : Text} (hx : x.isSymbol = true) :
    (Statement.code op (some (.symbol x))).Readable := by
  refine ⟨?_, ?_⟩
  · intro q hq
    obtain rfl := Option.some.inj hq
    exact hx
  · simp only [branchOpcodes, List.mem_cons, List.not_mem_nil, or_false] at h
    rcases h with rfl | rfl | rfl | rfl <;> exact ⟨_, _, rfl, rfl, rfl⟩

theorem readable_address {c : Cell} (h : c.proper = true) : (address c.name).Readable :=
  readable_mov1 (Cell.isSymbol_name h)

end Code

/-- All of these statements can be understood. -/
def Statement.AllReadable (ss : List Statement) : Prop := ∀ s ∈ ss, s.Readable

namespace Statement.AllReadable

variable {ss ts : List Statement} {s : Statement}

theorem nil : AllReadable [] := fun _ hs => nomatch hs

theorem cons (h : s.Readable) (hs : AllReadable ss) : AllReadable (s :: ss) :=
  List.forall_mem_cons.2 ⟨h, hs⟩

theorem append (hs : AllReadable ss) (ht : AllReadable ts) : AllReadable (ss ++ ts) :=
  List.forall_mem_append.2 ⟨hs, ht⟩

end Statement.AllReadable

open Statement (AllReadable)

namespace Code

variable {c : Cell}

theorem readable_load0 (h : c.proper = true) : AllReadable (load0 c) :=
  .cons (readable_address h) (.cons (readable_plain (by decide)) .nil)

theorem readable_load3 (h : c.proper = true) : AllReadable (load3 c) :=
  .cons (readable_address h) (.cons (readable_plain (by decide)) .nil)

theorem readable_store (h : c.proper = true) : AllReadable (store c) :=
  .cons (readable_address h) (.cons (readable_plain (by decide)) .nil)

theorem readable_test (h : c.proper = true) {jump : Opcode} (hj : jump ∈ branchOpcodes) (l : Label) :
    AllReadable (test c ++ [branch jump l]) :=
  ((readable_load0 h).append (.cons (readable_mov3 1) (.cons (readable_plain (by decide)) .nil))).append
    (.cons (readable_branch hj l.isSymbol_name) .nil)

theorem readable_mark (l : Label) : (mark l).Readable := l.isSymbol_name

theorem readable_compare {jump : Opcode} (hj : jump ∈ branchOpcodes) (n : Nat) :
    AllReadable (compare jump n) := by
  have hjump : AllReadable [plain .cmp, branch jump ⟨.holds, n⟩] :=
    .cons (readable_plain (by decide)) (.cons (readable_branch hj (Label.isSymbol_name _)) .nil)
  have hjoin : AllReadable [branch .b ⟨.join, n⟩, mark ⟨.holds, n⟩] :=
    .cons (readable_branch (by decide) (Label.isSymbol_name _)) (.cons (readable_mark _) .nil)
  exact (((hjump.append (readable_load0 rfl)).append hjoin).append (readable_load0 rfl)).append
    (.cons (readable_mark _) .nil)

end Code

theorem readable_operatorCode (op : Operator) (n : Nat) : AllReadable (operatorCode op n) := by
  cases op with
  | add => exact .cons (Code.readable_plain (by decide)) .nil
  | sub => exact .cons (Code.readable_plain (by decide)) .nil
  | mul => exact .cons (Code.readable_plain (by decide)) .nil
  | eq => exact Code.readable_compare (by decide) n
  | lt => exact Code.readable_compare (by decide) n

/-! ## Readable bodies -/

/-- The cell of an expression can be named. -/
theorem ExpressionCode.proper {n : Node} {n₀ n₁ : Names} {c : Cell} {e : Emission}
    {ks : List (Nat × UInt16)} (h : ExpressionCode n n₀ c n₁ e ks) : c.proper = true := by
  cases h with
  | ident hx => exact hx
  | intLit _ => rfl
  | binary _ _ => rfl

theorem ExpressionCode.readable {n : Node} {n₀ n₁ : Names} {c : Cell} {e : Emission}
    {ks : List (Nat × UInt16)} (h : ExpressionCode n n₀ c n₁ e ks) : AllReadable e.body := by
  induction h with
  | ident _ => exact .nil
  | intLit _ => exact .nil
  | binary hl hr ihl ihr =>
    exact ihl.append (ihr.append ((Code.readable_load0 hl.proper).append
      ((Code.readable_load3 hr.proper).append
        ((readable_operatorCode _ _).append (Code.readable_store rfl)))))

/-- There are no statements in an expression. -/
theorem ExpressionCode.collect {α : Type} {f : Node → Option α} (hf : Node.Simple f) {n : Node}
    {n₀ n₁ : Names} {c : Cell} {e : Emission} {ks : List (Nat × UInt16)}
    (h : ExpressionCode n n₀ c n₁ e ks) : n.collect f = [] := by
  induction h with
  | ident _ => exact Node.collect_ident hf _
  | intLit _ => exact Node.collect_intLit hf _
  | binary _ _ ihl ihr =>
    rw [Node.collect_binary hf, ihl, ihr]
    rfl

/-- The instruction that loads the base of a table. -/
def Code.base (x : Text) : Statement := .code .mov1 (some (tableBase x))

/-- With an identifier for the table it can be understood. -/
theorem Code.readable_base {x : Text} (h : x.isIdentifier = true) : (Code.base x).Readable := by
  refine Code.readable_mov1 ?_
  unfold tableBase
  split
  · rfl
  · exact isSymbol_tableName (Text.all_continues_of_isIdentifier h)

/-- Up to order, the body is readable statements and the loads of these tables' bases. -/
def Understood (targets : List Text) (body : List Statement) : Prop :=
  ∃ rs, AllReadable rs ∧ body.Perm (rs ++ targets.map Code.base)

namespace Understood

variable {xs ys : List Text} {ss ts : List Statement}

theorem of_readable (h : AllReadable ss) : Understood [] ss :=
  ⟨ss, h, by rw [List.map_nil, List.append_nil]⟩

theorem append (hs : Understood xs ss) (ht : Understood ys ts) : Understood (xs ++ ys) (ss ++ ts) := by
  obtain ⟨rs, hr, hp⟩ := hs
  obtain ⟨qs, hq, hp'⟩ := ht
  refine ⟨rs ++ qs, hr.append hq, (hp.append hp').trans ?_⟩
  rw [List.map_append, List.append_assoc, List.append_assoc]
  refine .append_left _ ?_
  rw [← List.append_assoc, ← List.append_assoc]
  exact .append_right _ List.perm_append_comm

/-- Readable statements may be added on either side. -/
theorem before (hr : AllReadable ts) (h : Understood xs ss) : Understood xs (ts ++ ss) :=
  (of_readable hr).append h

theorem after (h : Understood xs ss) (hr : AllReadable ts) : Understood xs (ss ++ ts) := by
  have := h.append (of_readable hr)
  rwa [List.append_nil] at this

/-- With identifiers for all tables everything is readable. -/
theorem readable (h : Understood xs ss) (hx : ∀ x ∈ xs, x.isIdentifier = true) : AllReadable ss := by
  obtain ⟨rs, hr, hp⟩ := h
  intro s hs
  rcases List.mem_append.1 (hp.mem_iff.1 hs) with hs | hs
  · exact hr s hs
  · obtain ⟨x, hmem, rfl⟩ := List.mem_map.1 hs
    exact Code.readable_base (hx x hmem)

end Understood

/-- A program assigns to the tables of its block. -/
theorem Node.tableTargets_program (ns : List Node) :
    (program ns).tableTargets = (block ns).tableTargets := by
  rw [tableTargets, tableTargets, collect_program rfl rfl]

/-- **What a body says**: readable statements, and one load of a base per assignment to a table. -/
theorem StatementCode.understood {n : Node} {n₀ n₁ : Names} {e : Emission} {ks : List (Nat × UInt16)}
    (h : StatementCode n n₀ n₁ e ks) : Understood n.tableTargets e.body := by
  have hf := Node.simple_tableTarget?
  unfold Node.tableTargets
  induction h with
  | nil =>
    rw [Node.collect_nil hf]
    exact .of_readable .nil
  | cons _ _ ihs ihss =>
    rw [Node.collect_block hf]
    exact ihs.append ihss
  | @assign n value x _ _ c _ _ hn hx hc =>
    have hnone : n.collect Node.tableTarget? = [] := by
      rcases hn with rfl | rfl
      · rw [Node.collect_scalarInit, hc.collect hf]
        rfl
      · rw [Node.collect_scalarAssign hf, hc.collect hf]
        rfl
    rw [hnone]
    have hcopy : AllReadable (Code.copy c (.var x)) :=
      (Code.readable_load0 hc.proper).append (Code.readable_store hx)
    exact (Understood.of_readable hc.readable).after hcopy
  | tableInit _ _ _ =>
    rw [Node.collect_tableInit]
    exact .of_readable .nil
  | @tableAssign x index value _ _ _ i v a b _ _ hi hv =>
    rw [Node.collect_tableAssign hf, hi.collect hf, hv.collect hf]
    have hloads : AllReadable (Code.load3 v ++ Code.load0 i) :=
      (Code.readable_load3 hv.proper).append (Code.readable_load0 hi.proper)
    have hstore : AllReadable [Code.plain .addp, Code.plain .str3] :=
      .cons (Code.readable_plain (by decide)) (.cons (Code.readable_plain (by decide)) .nil)
    -- the target of the assignment is the one name that goes unchecked
    have hbase : Understood [x] [Code.base x] := ⟨[], .nil, .refl _⟩
    exact .before hi.readable (.before hv.readable (.before hloads (hbase.after hstore)))
  | wait _ =>
    rw [Node.collect_wait]
    exact .of_readable (.cons (Code.readable_wait _) .nil)
  | @ifThen condition ss alternative _ n₁ _ c a b _ _ hnone hc _ ih =>
    have hsplit : (Node.ifElse condition (.block ss) alternative).collect Node.tableTarget? =
        (Node.block ss).collect Node.tableTarget? := by
      rcases hnone with rfl | rfl
      · rw [Node.collect_ifThen hf, hc.collect hf]
        rfl
      · rw [Node.collect_ifElse hf, hc.collect hf, Node.collect_nil hf, List.append_nil]
        rfl
    rw [hsplit]
    exact .before hc.readable (.before (Code.readable_test hc.proper (by decide) _) (ih.after
      (.cons (Code.readable_branch (by decide) (Label.isSymbol_name _))
        (.cons (Code.readable_mark _) .nil))))
  | ifElse hc _ _ ihss ihts =>
    rw [Node.collect_ifElse hf, hc.collect hf]
    exact .before hc.readable (.before (Code.readable_test hc.proper (by decide) _) (ihss.append
      (.before (.cons (Code.readable_branch (by decide) (Label.isSymbol_name _))
        (.cons (Code.readable_mark _) .nil)) (ihts.after (.cons (Code.readable_mark _) .nil)))))
  | whileLoop hc _ ih =>
    rw [Node.collect_whileLoop hf, hc.collect hf]
    exact .before (.cons (Code.readable_mark _) .nil) (.before hc.readable
      (.before (Code.readable_test hc.proper (by decide) _) (ih.after
        (.cons (Code.readable_branch (by decide) (Label.isSymbol_name _))
          (.cons (Code.readable_mark _) .nil)))))
  | exprStmt hc =>
    rw [Node.collect_exprStmt hf, hc.collect hf]
    exact .of_readable hc.readable

/-! ## Declarations -/

/-- The name that a declaration is made under, as the tree has it. -/
def Declaration.name : Declaration → Text
  | .variable x => x
  | .table x _ _ => x

/-- Expressions declare nothing. -/
theorem ExpressionCode.declarations {n : Node} {n₀ n₁ : Names} {c : Cell} {e : Emission}
    {ks : List (Nat × UInt16)} (h : ExpressionCode n n₀ c n₁ e ks) : e.declarations = [] := by
  induction h with
  | ident _ => rfl
  | intLit _ => rfl
  | binary _ _ ihl ihr =>
    rw [Emission.declarations_append, Emission.declarations_append, ihl, ihr]
    rfl

/-- Declared names have been let through. -/
theorem StatementCode.isIdentifier_declared {n : Node} {n₀ n₁ : Names} {e : Emission}
    {ks : List (Nat × UInt16)} (h : StatementCode n n₀ n₁ e ks) :
    ∀ d ∈ e.declarations, d.name.isIdentifier = true := by
  induction h with
  | nil => exact fun d hd => nomatch hd
  | cons _ _ ihs ihss => exact List.forall_mem_append.2 ⟨ihs, ihss⟩
  | assign _ hx hc =>
    intro d hd
    rw [Emission.declarations_append, hc.declarations, List.nil_append, List.mem_singleton] at hd
    rw [hd]
    exact hx
  | tableInit hx _ _ =>
    intro d hd
    rw [List.mem_singleton] at hd
    rw [hd]
    exact hx
  | tableAssign hi hv =>
    intro d hd
    rw [Emission.declarations_append, Emission.declarations_append, hi.declarations,
      hv.declarations] at hd
    cases hd
  | wait _ => exact fun d hd => nomatch hd
  | ifThen _ hc _ ih =>
    intro d hd
    rw [Emission.declarations_append, hc.declarations] at hd
    exact ih d (by simpa [Emission.code] using hd)
  | @ifElse _ _ _ _ _ _ _ _ _ _ b b' _ _ _ hc _ _ ihss ihts =>
    intro d hd
    rw [Emission.declarations_append, hc.declarations] at hd
    have hor : d ∈ b.declarations ∨ d ∈ b'.declarations := by simpa [Emission.code] using hd
    exact hor.elim (ihss d) (ihts d)
  | @whileLoop _ _ _ _ _ _ a b _ _ hc _ ih =>
    intro d hd
    have hor : d ∈ a.declarations ∨ d ∈ b.declarations := by simpa [Emission.code] using hd
    rw [hc.declarations] at hor
    exact hor.elim (fun hn => nomatch hn) (ih d)
  | exprStmt hc =>
    intro d hd
    rw [hc.declarations] at hd
    cases hd

/-- The names of the declared tables and variables. -/
theorem mem_keys_tables {e : Emission} {x : Text} (h : x ∈ e.tables.keys) :
    ∃ d ∈ e.declarations, x = tableName d.name := by
  rw [Emission.tables, OrderedMap.keys_ofList, List.mem_eraseDups, List.mem_map] at h
  obtain ⟨t, ht, rfl⟩ := h
  obtain ⟨d, hd, hsome⟩ := List.mem_filterMap.1 ht
  rcases d with y | ⟨y, size, default⟩
  · cases hsome
  · cases hsome
    exact ⟨_, hd, rfl⟩

theorem mem_varNames {e : Emission} {x : Text} (h : x ∈ e.varNames) :
    ∃ d ∈ e.declarations, x = (Cell.var d.name).name := by
  rw [Emission.varNames, List.mem_eraseDups, List.mem_filterMap] at h
  obtain ⟨d, hd, hsome⟩ := h
  rcases d with y | ⟨y, size, default⟩
  · cases hsome
    exact ⟨_, hd, rfl⟩
  · cases hsome

/-- Every declaration behind the code can be understood. -/
theorem StatementCode.readable_cells {n : Node} {n₀ n₁ : Names} {e : Emission}
    {ks : List (Nat × UInt16)} (h : StatementCode n n₀ n₁ e ks) : AllReadable e.cells := by
  have hconst : AllReadable [.data Cell.one.name [1], .data Cell.zero.name [0]] := by
    refine .cons ?_ (.cons ?_ .nil)
    · show Cell.one.name.isSymbol = true
      decide
    · show Cell.zero.name.isSymbol = true
      decide
  have htemps : AllReadable (e.temps.map fun t => .data (Cell.temp t.1).name [t.2]) := by
    intro s hs
    obtain ⟨t, -, rfl⟩ := List.mem_map.1 hs
    exact Cell.isSymbol_name (c := .temp t.1) rfl
  have htables : AllReadable (e.tables.entries.map fun d => .data d.1 d.2) := by
    intro s hs
    obtain ⟨t, ht, rfl⟩ := List.mem_map.1 hs
    obtain ⟨d, hd, hname⟩ := mem_keys_tables (List.mem_map_of_mem ht)
    show t.1.isSymbol = true
    rw [hname]
    exact isSymbol_tableName (Text.all_continues_of_isIdentifier (h.isIdentifier_declared d hd))
  have hvars : AllReadable (e.varNames.map fun x => .data x [0]) := by
    intro s hs
    obtain ⟨x, hx, rfl⟩ := List.mem_map.1 hs
    obtain ⟨d, hd, hname⟩ := mem_varNames hx
    show x.isSymbol = true
    rw [hname]
    exact Cell.isSymbol_name (c := .var d.name) (h.isIdentifier_declared d hd)
  exact ((hconst.append htemps).append htables).append hvars

/-- The halt loop can be understood. -/
theorem readable_halt :
    AllReadable [.label haltName, .code .b (some (.symbol haltName))] := by
  have hhalt : haltName.isSymbol = true := by decide
  exact .cons hhalt (.cons (Code.readable_branch (by decide) hhalt) .nil)

/-! ## Names -/

/-- The stems of these names are among `kinds`. -/
def StemsIn (kinds names : List Text) : Prop := ∀ x ∈ names, x.stem ∈ kinds

namespace StemsIn

variable {ks ls xs ys : List Text}

theorem append (hx : StemsIn ks xs) (hy : StemsIn ls ys) : StemsIn (ks ++ ls) (xs ++ ys) := by
  intro x hmem
  rcases List.mem_append.1 hmem with h | h
  · exact List.mem_append_left _ (hx x h)
  · exact List.mem_append_right _ (hy x h)

/-- Names of different kinds differ. -/
theorem nodup_append (hx : StemsIn ks xs) (hy : StemsIn ls ys) (hkl : ∀ k ∈ ks, k ∉ ls)
    (hnx : xs.Nodup) (hny : ys.Nodup) : (xs ++ ys).Nodup := by
  refine List.nodup_append.2 ⟨hnx, hny, ?_⟩
  rintro x hxs y hys rfl
  exact hkl _ (hx x hxs) (hy x hys)

end StemsIn

/-- The names of written declarations. -/
theorem names_data {α : Type} (f : α → Text) (g : α → List UInt16) (as : List α) :
    Statement.names (as.map fun a => .data (f a) (g a)) = as.map f := by
  induction as with
  | nil => rfl
  | cons a as ih =>
    rw [List.map_cons, List.map_cons, ← ih]
    rfl

theorem names_program (e : Emission) :
    Statement.names e.program = Statement.names e.body ++ ([haltName, Cell.one.name, Cell.zero.name] ++
      (e.temps.map (fun t => (Cell.temp t.1).name) ++ (e.tables.keys ++ e.varNames))) := by
  have htables := names_data (fun d : Text × List UInt16 => d.1) (fun d => d.2) e.tables.entries
  have hvars := names_data (fun x : Text => x) (fun _ => [0]) e.varNames
  have htemps := names_data (fun t : Nat × UInt16 => (Cell.temp t.1).name) (fun t => [t.2]) e.temps
  rw [List.map_id'] at hvars
  rw [Emission.program, Emission.cells]
  simp only [Statement.names_append, htables, hvars, htemps, List.append_assoc]
  rfl

/-- **No name twice.**  The labels of the body, the halt label, the constants, the temporaries, the
    tables and the variables of a program all have different names. -/
theorem StatementCode.nodup_names {n : Node} {n₀ n₁ : Names} {e : Emission}
    {ks : List (Nat × UInt16)} (h : StatementCode n n₀ n₁ e ks) :
    (Statement.names e.program).Nodup := by
  -- the names of each kind have their own stems
  have hlabels : StemsIn ["else".toList, "end".toList, "loop".toList, "endloop".toList, "true".toList,
      "join".toList] (Statement.names e.body) := by
    intro x hx
    obtain ⟨l, rfl⟩ := h.labelled.exists_label hx
    rw [Label.stem_name]
    cases l.role <;> decide
  have hfixed : StemsIn ["halt".toList, "const".toList] [haltName, Cell.one.name, Cell.zero.name] := by
    unfold StemsIn
    decide
  have htemps : StemsIn ["temp".toList] (e.temps.map fun t => (Cell.temp t.1).name) := by
    intro x hx
    obtain ⟨t, -, rfl⟩ := List.mem_map.1 hx
    rw [Cell.stem_temp]
    exact List.mem_singleton_self _
  have htables : StemsIn ["tab".toList] e.tables.keys := by
    intro x hx
    obtain ⟨d, -, rfl⟩ := mem_keys_tables hx
    rw [stem_tableName]
    exact List.mem_singleton_self _
  have hvars : StemsIn ["var".toList] e.varNames := by
    intro x hx
    obtain ⟨d, -, rfl⟩ := mem_varNames hx
    rw [Cell.stem_var]
    exact List.mem_singleton_self _
  -- within a kind the numbers differ, or a map has every name once
  have hntemps : (e.temps.map fun t => (Cell.temp t.1).name).Nodup := by
    have hmap : ((e.temps.map Prod.fst).map fun k => (Cell.temp k).name).Nodup :=
      List.Pairwise.map _ (fun j k hjk heq => hjk (Cell.temp.inj (Cell.name_injective heq)))
        h.numbered.nodup
    rwa [List.map_map] at hmap
  have hntables : e.tables.keys.Nodup := by
    rw [Emission.tables, OrderedMap.keys_ofList]
    exact OrderedMap.nodup_eraseDups _
  rw [names_program]
  refine hlabels.nodup_append (hfixed.append (htemps.append (htables.append hvars))) (by decide)
    h.labelled.nodup ?_
  refine hfixed.nodup_append (htemps.append (htables.append hvars)) (by decide) (by decide) ?_
  refine htemps.nodup_append (htables.append hvars) (by decide) hntemps ?_
  exact htables.nodup_append hvars (by decide) hntables (OrderedMap.nodup_eraseDups _)

/-! ## The program as the assembler sees it -/

/-- A row of readable statements, each on its line. -/
theorem statements_lines {ss : List Statement} {line : Statement → Text} (h : AllReadable ss)
    (hline : ∀ s, s.Readable →
      Text.physical (line s) = [line s] ∧ Statement.read (line s) = .ok (some s)) :
    ((ss.map line).flatMap Text.physical).filterMap Statement.ofLine? = ss ∧
      ∀ raw ∈ (ss.map line).flatMap Text.physical, Layout.Meaningful raw := by
  induction ss with
  | nil => exact ⟨rfl, fun raw hraw => nomatch hraw⟩
  | cons s ss ih =>
    obtain ⟨hone, hread⟩ := hline s (h s List.mem_cons_self)
    obtain ⟨hstatements, hmeaningful⟩ := ih fun s hs => h s (List.mem_cons_of_mem _ hs)
    rw [List.map_cons, List.flatMap_cons, hone]
    refine ⟨?_, ?_⟩
    · rw [List.singleton_append, List.filterMap_cons_some (Statement.ofLine?_eq_some_iff.2 hread),
        hstatements]
    · intro raw hraw
      rcases List.mem_cons.1 hraw with rfl | hraw
      · exact .inr ⟨s, hread⟩
      · exact hmeaningful raw hraw

/-- What is behind the body is understood, whatever the body is. -/
theorem StatementCode.lines_program {n : Node} {n₀ n₁ : Names} {e : Emission}
    {ks : List (Nat × UInt16)} (h : StatementCode n n₀ n₁ e ks) :
    ∃ behind : List Text,
      (Text.unlines (Streams.empty.extend e).lines).lines =
        (e.body.map Streams.bodyLine).flatMap Text.physical ++ behind ∧
      behind.filterMap Statement.ofLine? =
        [.label haltName, .code .b (some (.symbol haltName))] ++ e.cells ∧
      ∀ raw ∈ behind, Layout.Meaningful raw := by
  have hbody := fun (s : Statement) (hs : s.Readable) => Statement.read_bodyLine hs
  have htext : ∀ s : Statement, s.Readable →
      Text.physical s.text = [s.text] ∧ Statement.read s.text = .ok (some s) := fun s hs =>
    ⟨Statement.physical_text (b := []) hs (fun c hc => nomatch hc), Statement.read_text (b := []) hs rfl⟩
  obtain ⟨hhalt, hhaltLines⟩ := statements_lines readable_halt hbody
  obtain ⟨hcells, hcellLines⟩ := statements_lines h.readable_cells htext
  have hempty : Text.physical [] = [[]] := rfl
  have hnone : Statement.ofLine? [] = none := rfl
  -- behind the body: the halt loop, an empty line, and the declarations
  refine ⟨([Statement.label haltName, .code .b (some (.symbol haltName))].map
    Streams.bodyLine).flatMap Text.physical ++ [] :: (e.cells.map Statement.text).flatMap Text.physical,
    ?_, ?_, ?_⟩
  · rw [Text.lines_unlines, Streams.lines_extend, List.map_append, List.append_assoc,
      List.flatMap_append, List.flatMap_append, List.flatMap_cons, hempty, List.singleton_append]
  · rw [List.filterMap_append, List.filterMap_cons_none hnone, hhalt, hcells]
  · intro raw hraw
    rcases List.mem_append.1 hraw with hraw | hraw
    · exact hhaltLines raw hraw
    · rcases List.mem_cons.1 hraw with rfl | hraw
      · exact .inl rfl
      · exact hcellLines raw hraw

/-- **The text is the program**: with a readable body, the statements of the text are those of the
    program. -/
theorem StatementCode.statements_program {n : Node} {n₀ n₁ : Names} {e : Emission}
    {ks : List (Nat × UInt16)} (h : StatementCode n n₀ n₁ e ks) (hbody : AllReadable e.body) :
    (Text.unlines (Streams.empty.extend e).lines).statements = e.program := by
  obtain ⟨behind, hlines, hbehind, -⟩ := h.lines_program
  rw [Text.statements, hlines, List.filterMap_append, hbehind,
    (statements_lines hbody fun s hs => Statement.read_bodyLine hs).1, Emission.program]

end Minicore
