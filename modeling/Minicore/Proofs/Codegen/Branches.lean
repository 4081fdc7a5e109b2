/-
  BRANCHES — where generated code can branch to.

  Problem: a branch is a name, and the assembler looks the name up in the whole text.  What keeps the
  code of one statement apart from that of all others is only which names it uses: labels from one
  counter, of six roles, some numbered before a condition and some behind it.

  1. **Lines** — whatever line a branch is read from, it has the name of a place for its parameter
     (`Statement.symbol_of_branch`).

  2. **Code** — `BranchesInto marks ss`: every branch of `ss` goes to a label in `marks`.  The code of a
     statement branches into whatever it is part of, so also into itself (`StatementCode.branches`).

  3. **Segments** — `Enclosed lo hi segment`, said of LINES: all of them are instructions and labels, the
     labels have numbers above `lo` up to `hi`, and every branch goes to a label that has exactly one
     line.  What a generator appends for a statement is such a segment (`enclosed_of_statement`), and
     segments with different numbers do not branch into each other (`Enclosed.apart`).
-/
import Minicore.Proofs.Codegen.Steps
import Minicore.Proofs.Machine.Matching

namespace Minicore

open Statement (AllReadable names isCode ofLine?)

/-! ## Lines -/

namespace Statement

/-- The words of a line alone make no instruction. -/
theorem ofWords_ne_code (ws : List Text) (op : Opcode) (param : Option Param) :
    ofWords ws ≠ .ok (some (.code op param)) := by
  intro h
  unfold ofWords at h
  split at h
  · split at h <;> cases h
  · split at h
    · rename_i values _
      cases hvalues : readValues (Text.join " " values) with
      | error c => rw [hvalues] at h; cases h
      | ok vs => rw [hvalues] at h; cases h
    · cases h
  · cases h

/-- A line that reads as a branch names its target. -/
theorem symbol_of_branch {line : Text} {op : Opcode} {param : Option Param}
    (hop : op ∈ Code.branchOpcodes) (h : read line = .ok (some (.code op param))) :
    ∃ x, param = some (.symbol x) := by
  have hslots : ∀ p ∈ Catalog.standard.patterns, p.op ∈ Code.branchOpcodes → p.slots = [.label] := by
    decide
  unfold read at h
  split at h
  · cases h
  · rename_i found hclassify
    obtain ⟨rfl, rfl⟩ : found.op = op ∧ found.param = param := by simpa using h
    obtain ⟨p, hp, operands, -, -, hoperands, hpop, hparam⟩ := Catalog.exists_of_classify hclassify
    rw [hslots p hp (by rwa [hpop])] at hoperands
    -- the one operand fits the slot of a label, so it is a bare name
    cases operands with
    | nil => cases hoperands
    | cons o operands =>
      obtain ⟨hslot, hnil⟩ := List.cons.inj hoperands
      cases o with
      | bare x => exact ⟨x, hparam.symm⟩
      | _ => cases hslot
  · exact absurd h (ofWords_ne_code _ _ _)

/-- The lines of readable statements read as them. -/
theorem filterMap_bodyLine {ss : List Statement} (h : AllReadable ss) :
    (ss.map Streams.bodyLine).filterMap ofLine? = ss := by
  rw [List.filterMap_map]
  conv_rhs => rw [← List.filterMap_some (l := ss)]
  exact List.filterMap_congr fun s hs => ofLine?_eq_some_iff.2 (read_bodyLine (h s hs)).2

/-- Where no name is defined twice, a label comes once. -/
theorem count_label {ss : List Statement} (hn : (names ss).Nodup) {x : Text} (hx : .label x ∈ ss) :
    ss.count (.label x) = 1 := by
  obtain ⟨as, bs, rfl⟩ := List.append_of_mem hx
  have hnames : names (as ++ .label x :: bs) = names as ++ x :: names bs := names_append _ _
  rw [hnames, List.nodup_append, List.nodup_cons] at hn
  have hother : ∀ cs : List Statement, x ∉ names cs → cs.count (.label x) = 0 := fun cs hcs =>
    List.count_eq_zero.2 fun hmem => hcs (List.mem_filterMap.2 ⟨_, hmem, rfl⟩)
  rw [List.count_append, List.count_cons_self, hother bs hn.2.1.1,
    hother as fun hmem => hn.2.2 x hmem x List.mem_cons_self rfl]

end Statement

/-! ## Code -/

/-- The statement is a branch. -/
def Statement.isBranch : Statement → Bool
  | .code op _ => Code.branchOpcodes.contains op
  | _ => false

/-- Every branch goes to one of these labels. -/
def BranchesInto (marks ss : List Statement) : Prop :=
  ∀ op ∈ Code.branchOpcodes, ∀ param, .code op param ∈ ss →
    ∃ l : Label, param = some (.symbol l.name) ∧ Code.mark l ∈ marks

namespace BranchesInto

variable {marks ss ts : List Statement} {c : Cell} {l m : Label} {jump : Opcode}

theorem append (hs : BranchesInto marks ss) (ht : BranchesInto marks ts) :
    BranchesInto marks (ss ++ ts) := by
  intro op hop param hmem
  rcases List.mem_append.1 hmem with hmem | hmem
  · exact hs op hop param hmem
  · exact ht op hop param hmem

/-- There are no branches. -/
theorem of_none (h : ss.any Statement.isBranch = false) : BranchesInto marks ss := by
  intro op hop param hmem
  exact absurd (List.contains_iff_mem.2 hop) (List.any_eq_false.1 h _ hmem)

theorem branch (hl : Code.mark l ∈ marks) : BranchesInto marks [Code.branch jump l] := by
  intro op _ param hmem
  obtain ⟨-, rfl⟩ := Statement.code.inj (List.mem_singleton.1 hmem)
  exact ⟨l, rfl, hl⟩

theorem test (hl : Code.mark l ∈ marks) : BranchesInto marks (Code.test c ++ [Code.branch jump l]) :=
  .append (.of_none rfl) (.branch hl)

theorem jumpMark (hl : Code.mark l ∈ marks) :
    BranchesInto marks [Code.branch jump l, Code.mark m] := by
  have hmark : BranchesInto marks [Code.mark m] := .of_none rfl
  exact (BranchesInto.branch hl).append hmark

theorem compare {n : Nat} (hholds : Code.mark ⟨.holds, n⟩ ∈ marks)
    (hjoin : Code.mark ⟨.join, n⟩ ∈ marks) : BranchesInto marks (Code.compare jump n) := by
  have hcompare : BranchesInto marks ([Code.plain .cmp] ++ [Code.branch jump ⟨.holds, n⟩]) :=
    .append (.of_none rfl) (.branch hholds)
  exact (((hcompare.append (.of_none rfl)).append (.jumpMark hjoin)).append (.of_none rfl)).append
    (.of_none rfl)

end BranchesInto

section Derivations

variable {n : Node} {n₀ n₁ : Names} {c : Cell} {e : Emission} {ks : List (Nat × UInt16)}
  {marks : List Statement}

theorem branches_operatorCode {op : Operator} {k : Nat} (h : operatorCode op k ⊆ marks) :
    BranchesInto marks (operatorCode op k) := by
  have hcompare : ∀ jump, Code.compare jump k ⊆ marks → BranchesInto marks (Code.compare jump k) :=
    fun jump h => .compare (h (by simp [Code.compare])) (h (by simp [Code.compare]))
  cases op with
  | add => exact .of_none rfl
  | sub => exact .of_none rfl
  | mul => exact .of_none rfl
  | eq => exact hcompare .beq h
  | lt => exact hcompare .bcc h

/-- **Expressions** branch into themselves, so into whatever they are part of. -/
theorem ExpressionCode.branches (h : ExpressionCode n n₀ c n₁ e ks) (hmarks : e.body ⊆ marks) :
    BranchesInto marks e.body := by
  induction h with
  | ident _ => exact .of_none rfl
  | intLit _ => exact .of_none rfl
  | binary _ _ ihl ihr =>
    obtain ⟨hleft, hmarks⟩ := List.append_subset.1 hmarks
    obtain ⟨hright, hmarks⟩ := List.append_subset.1 hmarks
    obtain ⟨-, hmarks⟩ := List.append_subset.1 hmarks
    obtain ⟨-, hmarks⟩ := List.append_subset.1 hmarks
    obtain ⟨hop, -⟩ := List.append_subset.1 hmarks
    exact (ihl hleft).append ((ihr hright).append (.append (.of_none rfl) (.append (.of_none rfl)
      ((branches_operatorCode hop).append (.of_none rfl)))))

/-- **Statements** do, too: the labels of conditionals and loops stand beside the code that branches
    to them. -/
theorem StatementCode.branches (h : StatementCode n n₀ n₁ e ks) (hmarks : e.body ⊆ marks) :
    BranchesInto marks e.body := by
  induction h with
  | nil => exact .of_none rfl
  | cons _ _ ihs ihss =>
    obtain ⟨hs, hss⟩ := List.append_subset.1 hmarks
    exact (ihs hs).append (ihss hss)
  | assign _ _ hc =>
    exact (hc.branches (List.append_subset.1 hmarks).1).append (.of_none rfl)
  | tableInit _ _ _ => exact .of_none rfl
  | tableAssign hi hv =>
    obtain ⟨hindex, hmarks⟩ := List.append_subset.1 hmarks
    obtain ⟨hvalue, -⟩ := List.append_subset.1 hmarks
    exact (hi.branches hindex).append ((hv.branches hvalue).append (.of_none rfl))
  | wait _ => exact .of_none rfl
  | ifThen _ hc _ ih =>
    obtain ⟨hcondition, hmarks⟩ := List.append_subset.1 hmarks
    obtain ⟨-, hmarks⟩ := List.append_subset.1 hmarks
    obtain ⟨hbody, hend⟩ := List.append_subset.1 hmarks
    have hmark := hend (List.mem_cons_of_mem _ List.mem_cons_self)
    exact (hc.branches hcondition).append ((BranchesInto.test hmark).append
      ((ih hbody).append (.jumpMark hmark)))
  | ifElse hc _ _ ihss ihts =>
    obtain ⟨hcondition, hmarks⟩ := List.append_subset.1 hmarks
    obtain ⟨-, hmarks⟩ := List.append_subset.1 hmarks
    obtain ⟨hss, hmarks⟩ := List.append_subset.1 hmarks
    obtain ⟨halternative, hmarks⟩ := List.append_subset.1 hmarks
    obtain ⟨hts, hend⟩ := List.append_subset.1 hmarks
    have hother := halternative (List.mem_cons_of_mem _ List.mem_cons_self)
    have hmark := hend List.mem_cons_self
    exact (hc.branches hcondition).append ((BranchesInto.test hother).append
      ((ihss hss).append ((BranchesInto.jumpMark hmark).append ((ihts hts).append (.of_none rfl)))))
  | whileLoop hc _ ih =>
    obtain ⟨hloop, hmarks⟩ := List.append_subset.1 hmarks
    obtain ⟨hcondition, hmarks⟩ := List.append_subset.1 hmarks
    obtain ⟨-, hmarks⟩ := List.append_subset.1 hmarks
    obtain ⟨hbody, hend⟩ := List.append_subset.1 hmarks
    have hstart := hloop List.mem_cons_self
    have hmark := hend (List.mem_cons_of_mem _ List.mem_cons_self)
    exact .append (.of_none rfl) ((hc.branches hcondition).append ((BranchesInto.test hmark).append
      ((ih hbody).append (.jumpMark hstart))))
  | exprStmt hc => exact hc.branches hmarks

end Derivations

/-! ## Segments -/

/-- Lines that are instructions and labels, with label numbers above `lo` up to `hi`, and branches to
    labels among these lines only, each of which has one line. -/
structure Enclosed (lo hi : Nat) (segment : List Text) : Prop where
  code : ∀ line ∈ segment, ∃ s, Statement.read line = .ok (some s) ∧ s.isCode = true
  label : ∀ x, .label x ∈ segment.filterMap ofLine? →
    ∃ l : Label, x = l.name ∧ lo < l.number ∧ l.number ≤ hi
  branch : ∀ op ∈ Code.branchOpcodes, ∀ param, .code op param ∈ segment.filterMap ofLine? →
    ∃ x, param = some (.symbol x) ∧ (segment.filterMap ofLine?).count (.label x) = 1

/-- No branch of the first lines goes to a label of the second. -/
def Avoids (as bs : List Text) : Prop :=
  ∀ op ∈ Code.branchOpcodes, ∀ x, .code op (some (.symbol x)) ∈ as.filterMap ofLine? →
    .label x ∉ bs.filterMap ofLine?

/-- **Segments with different numbers** do not branch into each other. -/
theorem Enclosed.apart {lo mid mid' hi : Nat} {as bs : List Text} (ha : Enclosed lo mid as)
    (hb : Enclosed mid' hi bs) (hmid : mid ≤ mid') : Avoids as bs ∧ Avoids bs as := by
  -- a branch goes to a label of its own segment, and no label belongs to both
  have hnot : ∀ x, .label x ∈ as.filterMap ofLine? → .label x ∉ bs.filterMap ofLine? := by
    intro x hx hy
    obtain ⟨l, rfl, -, hl⟩ := ha.label x hx
    obtain ⟨m, heq, hm, -⟩ := hb.label _ hy
    obtain rfl := Label.name_injective heq
    omega
  have hown : ∀ {lo hi : Nat} {segment : List Text}, Enclosed lo hi segment →
      ∀ op ∈ Code.branchOpcodes, ∀ x, .code op (some (.symbol x)) ∈ segment.filterMap ofLine? →
        .label x ∈ segment.filterMap ofLine? := by
    intro lo hi segment h op hop x hmem
    obtain ⟨y, hy, hcount⟩ := h.branch op hop _ hmem
    obtain rfl : x = y := Param.symbol.inj (Option.some.inj hy)
    exact List.count_pos_iff.1 (by omega)
  constructor
  · intro op hop x hmem
    exact hnot x (hown ha op hop x hmem)
  · intro op hop x hmem hx
    exact hnot x hx (hown hb op hop x hmem)

/-- **Statements** of identifiers have enclosed code, from whatever state the generator starts. -/
theorem enclosed_of_statement {n : Node} (hn : n.WellNamed) {g g' : Generator}
    (h : g.run (statement n) = (.ok (), g')) :
    ∃ segment, g'.streams.body = g.streams.body ++ segment ∧
      Enclosed g.names.labels g'.names.labels segment := by
  have hsound := (keeps_statement n hn g.names).1
  obtain ⟨hresult, rfl⟩ := Prod.mk.inj h
  have hrun : statement n g.names =
      ⟨.ok (), (statement n g.names).names, (statement n g.names).emission⟩ := by rw [← hresult]
  obtain ⟨ks, hcode⟩ := statement_derived hrun
  have hstatements := Statement.filterMap_bodyLine hsound.readable
  refine ⟨(statement n g.names).emission.body.map Streams.bodyLine, ?_, ?_, ?_, ?_⟩
  · show (g.streams.extend _).body = _
    rw [Streams.extend, Streams.foldl_declare]
  · intro line hline
    obtain ⟨s, hs, rfl⟩ := List.mem_map.1 hline
    exact ⟨s, (Statement.read_bodyLine (hsound.readable s hs)).2, List.all_eq_true.1 hsound.code s hs⟩
  · intro x hx
    rw [hstatements] at hx
    obtain ⟨-, ls, hmarked, hnames⟩ := hcode.labelled
    obtain ⟨l, hl, rfl⟩ := List.mem_map.1 (hnames.mem_iff.2 (List.mem_filterMap.2 ⟨_, hx, rfl⟩))
    exact ⟨l, rfl, hmarked.2 l hl⟩
  · intro op hop param hmem
    rw [hstatements] at hmem ⊢
    obtain ⟨l, rfl, hl⟩ := hcode.branches (fun _ hs => hs) op hop param hmem
    exact ⟨l.name, rfl, Statement.count_label hcode.labelled.nodup hl⟩

end Minicore
