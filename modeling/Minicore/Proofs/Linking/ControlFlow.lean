/-
  CONTROL FLOW — execution stays inside the code.

  Problem: the machine executes whatever its counter points at.  Code and data lie in one image, and a
  branch is a number: nothing but the text keeps a branch from leading into the data, or behind them.

  1. **Specification** — `ClosedAt asm w`: the instructions are the records up to the address `w`, the one
     there is the halt loop, and every branch goes to an instruction.

  2. **Code in front of data** — a generated text is some code, the halt loop, and declarations.  A name
     stands for an address of the code exactly when it is not one of the declarations' (`toNat_le_iff`).
     So control flow is closed exactly when the code declares no words and has no branch to a declared
     name (`closedAt_of_contained`, `contained_of_closedAt`).

  3. **Crux** — the code is what the generator wrote, EXCEPT for the lines that the name of an assigned
     table starts.  What the generator wrote branches to labels of its own; so the question is about
     the stray lines alone (`Node.ContainedTargets`).

  4. **Execution** — a step goes to the next word or to the operand of a branch (`pc_of_execute`), and
     the last instruction goes to itself; so a run from address zero finds an instruction wherever it
     comes (`ClosedAt.of_reaches`).
-/
import Minicore.Proofs.Assembly.Places
import Minicore.Proofs.Codegen.Branches
import Minicore.Proofs.Codegen.Warnings
import Minicore.Proofs.Linking.Layout

namespace Minicore

open Machine (fetch Reaches)
open Statement (words names ofLine? wordsIn)

/-! ## Closed control flow -/

/-- Up to the address `w` there are instructions, and control flow does not leave them. -/
structure ClosedAt (asm : Assembly) (w : Nat) : Prop where
  /-- The instructions are the records up to there. -/
  code : ∀ r ∈ asm.records, (∃ op v, r.word = .instruction op v) ↔ r.address.toNat ≤ w
  /-- The last of them is the halt loop: a branch to itself. -/
  halt : asm.layout.map.address? haltName = some (UInt16.ofNat w) ∧
    ∃ r ∈ asm.records, r.address.toNat = w ∧ r.word = .instruction .b r.address
  /-- Every branch goes to an instruction. -/
  branch : ∀ r ∈ asm.records, ∀ op ∈ Code.branchOpcodes, ∀ v, r.word = .instruction op v →
    ∃ r' ∈ asm.records, r'.address = v ∧ ∃ op' v', r'.word = .instruction op' v'

/-- The code declares no words, and has no branch to a name of the cells. -/
structure Contained (code cells : List Statement) : Prop where
  data : ∀ x values, .data x values ∈ code → values = []
  branch : ∀ op ∈ Code.branchOpcodes, ∀ x, .code op (some (.symbol x)) ∈ code → x ∉ names cells

theorem Contained.mono {code part cells : List Statement} (h : Contained code cells)
    (hpart : part ⊆ code) : Contained part cells :=
  ⟨fun x values hmem => h.data x values (hpart hmem),
    fun op hop x hmem => h.branch op hop x (hpart hmem)⟩

/-! ## Code in front of data -/

/-- Some code, the halt loop, and declarations of other names. -/
structure Fronted (t : Text) (code cells : List Statement) : Prop where
  statements : t.statements =
    code ++ ([.label haltName, .code .b (some (.symbol haltName))] ++ cells)
  declared : ∀ s ∈ cells, ∃ x values, s = .data x values
  fresh : haltName ∉ names cells
  /-- The branches of the code name their targets. -/
  symbol : ∀ op ∈ Code.branchOpcodes, ∀ param, .code op param ∈ code → ∃ x, param = some (.symbol x)

namespace Fronted

variable {t : Text} {asm : Assembly} {code cells : List Statement} (hf : Fronted t code cells)
  (h : assemble t = .ok asm)
include hf h

/-- **Names of the code**: a name stands for an address of the code, the halt loop included, exactly when
    it is not one of the cells'. -/
theorem toNat_le_iff {x : Text} {v : UInt16} (hx : asm.layout.map.address? x = some v) :
    v.toNat ≤ words code ↔ x ∉ names cells := by
  obtain ⟨as, s, bs, hss, hname, hbs, rfl⟩ := (Layout.address?_eq_some_iff h).1 hx
  rw [Layout.toNat_words h hss]
  -- the last statement that defines the name is of the code, of the halt loop, or of the cells
  rcases List.append_eq_append_iff.1 (hf.statements.symm.trans hss) with ⟨c, rfl, hrest⟩ | ⟨c, rfl, hrest⟩
  · match c, hrest with
    | [], hrest =>
      obtain ⟨rfl, rfl⟩ := List.cons.inj hrest
      rw [List.append_nil]
      constructor
      · intro _
        exact hbs
      · intro _
        exact Nat.le_refl _
    | [_], hrest =>
      obtain ⟨-, hbranch⟩ := List.cons.inj hrest
      obtain ⟨rfl, -⟩ := List.cons.inj hbranch
      cases hname
    | _ :: _ :: c, hrest =>
      obtain ⟨rfl, hbranch⟩ := List.cons.inj hrest
      obtain ⟨rfl, rfl⟩ := List.cons.inj hbranch
      have hmem : x ∈ names (c ++ s :: bs) := List.mem_filterMap.2 ⟨s, by simp, hname⟩
      have hwidth : (Statement.code .b (some (.symbol haltName))).width = 1 := rfl
      constructor
      · intro hle
        rw [Statement.words_append, Statement.words_cons, Statement.words_cons] at hle
        omega
      · intro hnot
        exact absurd hmem hnot
  · have hle : words as ≤ words (as ++ c) := by
      rw [Statement.words_append]
      omega
    constructor
    · intro _ hmem
      apply hbs
      -- what comes behind the statement ends in the cells
      cases c with
      | nil =>
        obtain ⟨rfl, rfl⟩ := List.cons.inj hrest
        exact hmem
      | cons s' c =>
        obtain ⟨rfl, rfl⟩ := List.cons.inj hrest
        show x ∈ names (c ++ ([.label haltName, .code .b (some (.symbol haltName))] ++ cells))
        rw [Statement.names_append, Statement.names_append]
        exact List.mem_append_right _ (List.mem_append_right _ hmem)
    · intro _
      exact hle

/-- The halt loop stands behind the code. -/
theorem address_halt : asm.layout.map.address? haltName = some (UInt16.ofNat (words code)) :=
  (Layout.address?_eq_some_iff h).2 ⟨code, .label haltName, _, hf.statements, rfl, hf.fresh, rfl⟩

/-- The words of the records. -/
theorem words_records : asm.records.map Record.word =
    code.flatMap (wordsIn asm.layout.map) ++
      .instruction .b (UInt16.ofNat (words code)) :: cells.flatMap (wordsIn asm.layout.map) := by
  have hloop : (Statement.code .b (some (.symbol haltName))).wordsIn asm.layout.map =
      [.instruction .b (UInt16.ofNat (words code))] := by
    simp only [wordsIn, AddressMap.resolve, hf.address_halt h]
  rw [(Layout.words_of_assemble h).1, hf.statements, List.flatMap_append, List.flatMap_append,
    List.flatMap_cons, List.flatMap_cons, hloop]
  rfl

theorem length_code : (code.flatMap (wordsIn asm.layout.map)).length = words code :=
  Layout.length_wordsIn h fun s hs => by
    rw [hf.statements]
    exact List.mem_append_left _ hs

/-- **Where a record comes from**: from the code, the halt loop, or a cell. -/
theorem word_cases {r : Record} (hr : r ∈ asm.records) :
    r.address.toNat < words code ∧ r.word ∈ code.flatMap (wordsIn asm.layout.map) ∨
      r.address.toNat = words code ∧ r.word = .instruction .b r.address ∨
        words code < r.address.toNat ∧ ∃ v, r.word = .data v := by
  have hword := (Layout.word_iff h).2 ⟨r, hr, rfl, rfl⟩
  have hlength := hf.length_code h
  rw [hf.words_records h] at hword
  rcases Nat.lt_trichotomy r.address.toNat (words code) with hlt | heq | hgt
  · rw [List.getElem?_append_left (by omega)] at hword
    exact .inl ⟨hlt, List.mem_of_getElem? hword⟩
  · rw [List.getElem?_append_right (by omega), hlength, ← heq, Nat.sub_self, UInt16.ofNat_toNat] at hword
    exact .inr (.inl ⟨heq, (Option.some.inj hword).symm⟩)
  · obtain ⟨k, hk⟩ : ∃ k, r.address.toNat = words code + (k + 1) :=
      ⟨r.address.toNat - words code - 1, by omega⟩
    rw [List.getElem?_append_right (by omega), hlength, hk, Nat.add_sub_cancel_left,
      List.getElem?_cons_succ] at hword
    obtain ⟨s, hs, hmem⟩ := List.mem_flatMap.1 (List.mem_of_getElem? hword)
    obtain ⟨x, values, rfl⟩ := hf.declared s hs
    obtain ⟨v, -, hv⟩ := List.mem_map.1 hmem
    exact .inr (.inr ⟨hgt, v, hv.symm⟩)

/-- Every word of the code is in a record there. -/
theorem exists_of_mem {word : Word} (hmem : word ∈ code.flatMap (wordsIn asm.layout.map)) :
    ∃ r ∈ asm.records, r.address.toNat < words code ∧ r.word = word := by
  obtain ⟨a, ha⟩ := List.mem_iff_getElem?.1 hmem
  obtain ⟨hlt, -⟩ := List.getElem?_eq_some_iff.1 ha
  have hword : (asm.records.map Record.word)[a]? = some word := by
    rw [hf.words_records h, List.getElem?_append_left hlt, ha]
  obtain ⟨r, hr, rfl, rfl⟩ := (Layout.word_iff h).1 hword
  exact ⟨r, hr, by rwa [hf.length_code h] at hlt, rfl⟩

theorem exists_halt :
    ∃ r ∈ asm.records, r.address.toNat = words code ∧ r.word = .instruction .b r.address := by
  have hword : (asm.records.map Record.word)[words code]? =
      some (.instruction .b (UInt16.ofNat (words code))) := by
    rw [hf.words_records h, List.getElem?_append_right (Nat.le_of_eq (hf.length_code h)),
      hf.length_code h, Nat.sub_self]
    rfl
  obtain ⟨r, hr, haddress, hword⟩ := (Layout.word_iff h).1 hword
  exact ⟨r, hr, haddress, by rw [hword, ← haddress, UInt16.ofNat_toNat]⟩

/-! ### Contained code -/

/-- **Contained code is closed**: its branches go to its own addresses. -/
theorem closedAt_of_contained (hc : Contained code cells) : ClosedAt asm (words code) := by
  have hcode : ∀ r ∈ asm.records, (∃ op v, r.word = .instruction op v) ↔
      r.address.toNat ≤ words code := by
    intro r hr
    rcases hf.word_cases h hr with ⟨hlt, hmem⟩ | ⟨heq, hword⟩ | ⟨hgt, v, hword⟩
    · obtain ⟨s, hs, hmem⟩ := List.mem_flatMap.1 hmem
      rcases Layout.mem_wordsIn hmem with ⟨op, param, v, -, hword, -⟩ | ⟨x, values, v, rfl, hv, -⟩
      · exact ⟨fun _ => Nat.le_of_lt hlt, fun _ => ⟨op, v, hword⟩⟩
      -- a declaration in the code has no words
      · rw [hc.data x values hs] at hv
        cases hv
    · exact ⟨fun _ => Nat.le_of_eq heq, fun _ => ⟨_, _, hword⟩⟩
    · constructor
      · rintro ⟨op, u, hinstruction⟩
        rw [hword] at hinstruction
        cases hinstruction
      · intro hle
        omega
  refine ⟨hcode, ⟨hf.address_halt h, hf.exists_halt h⟩, ?_⟩
  intro r hr op hop v hword
  rcases hf.word_cases h hr with ⟨-, hmem⟩ | ⟨-, hloop⟩ | ⟨-, u, hdata⟩
  · obtain ⟨s, hs, hmem⟩ := List.mem_flatMap.1 hmem
    rw [hword] at hmem
    rcases Layout.mem_wordsIn hmem with ⟨op', param, v', rfl, hsame, hv⟩ | ⟨_, _, _, _, _, hdata⟩
    · obtain ⟨rfl, rfl⟩ := Word.instruction.inj hsame
      obtain ⟨x, rfl⟩ := hf.symbol op hop param hs
      have hle : v.toNat ≤ words code := (hf.toNat_le_iff h hv).2 (hc.branch op hop x hs)
      obtain ⟨q, hq, hlast, -⟩ := hf.exists_halt h
      obtain ⟨q', hq', haddress⟩ := Layout.exists_record_of_le h hq (a := v.toNat) (by omega)
      exact ⟨q', hq', UInt16.toNat_inj.1 haddress, (hcode q' hq').2 (by omega)⟩
    · cases hdata
  · rw [hloop] at hword
    obtain ⟨-, rfl⟩ := Word.instruction.inj hword
    exact ⟨r, hr, rfl, _, _, hloop⟩
  · rw [hdata] at hword
    cases hword

/-- **Closed code is contained.** -/
theorem contained_of_closedAt {w : Nat} (hw : ClosedAt asm w) : Contained code cells := by
  constructor
  · intro x values hmem
    cases values with
    | nil => rfl
    | cons v values =>
      -- the halt loop is an instruction, so there is no data in front of it
      have hword : .data v ∈ code.flatMap (wordsIn asm.layout.map) :=
        List.mem_flatMap.2 ⟨_, hmem, List.mem_cons_self⟩
      obtain ⟨r, hr, hlt, hdata⟩ := hf.exists_of_mem h hword
      obtain ⟨q, hq, haddress, hloop⟩ := hf.exists_halt h
      have hle : q.address.toNat ≤ w := (hw.code q hq).1 ⟨_, _, hloop⟩
      obtain ⟨op, u, hword⟩ := (hw.code r hr).2 (by omega)
      rw [hdata] at hword
      cases hword
  · intro op hop x hmem hx
    have hlength := (Layout.words_of_assemble h).2 (.code op (some (.symbol x))) (by
      rw [hf.statements]
      exact List.mem_append_left _ hmem)
    obtain ⟨word, hone⟩ := List.length_eq_one_iff.1 hlength
    obtain ⟨v, rfl, hv⟩ := Layout.resolves_of_wordsIn hone
    have hword : .instruction op v ∈ code.flatMap (wordsIn asm.layout.map) :=
      List.mem_flatMap.2 ⟨_, hmem, by rw [hone]; exact List.mem_cons_self⟩
    obtain ⟨r, hr, -, hword⟩ := hf.exists_of_mem h hword
    -- the branch goes behind the halt loop, where there is data
    obtain ⟨q, hq, rfl, op', v', htarget⟩ := hw.branch r hr op hop v hword
    have hnot : ¬ q.address.toNat ≤ words code := fun hle => (hf.toNat_le_iff h hv).1 hle hx
    rcases hf.word_cases h hq with ⟨hlt, -⟩ | ⟨heq, -⟩ | ⟨-, u, hdata⟩
    · omega
    · omega
    · rw [hdata] at htarget
      cases htarget

end Fronted

/-! ## Trees -/

/-- The lines that the names of assigned tables start declare no words, and have no branch to a
    constant, a temporary, a table or a variable of the program. -/
def Node.ContainedTargets (n : Node) : Prop :=
  Contained (n.strayLines.filterMap ofLine?) n.emission.cells

theorem Node.containedTargets_of_identifiers {n : Node}
    (hx : ∀ x ∈ n.tableTargets, x.isIdentifier = true) : n.ContainedTargets := by
  have hnone := strayLines_of_identifiers hx
  rw [ContainedTargets, hnone]
  exact ⟨fun _ _ hmem => (nomatch hmem), fun _ _ _ hmem => (nomatch hmem)⟩

/-- **The crux**: the lines of a body are contained exactly when those among them are that names of
    assigned tables start. -/
theorem StatementCode.contained_iff {n : Node} {n₀ n₁ : Names} {e : Emission} {ks : List (Nat × UInt16)}
    (h : StatementCode n n₀ n₁ e ks) :
    Contained (((e.body.map Streams.bodyLine).flatMap Text.physical).filterMap ofLine?) e.cells ↔
      Contained (n.strayLines.filterMap ofLine?) e.cells := by
  have hunderstood := h.understood
  constructor
  · intro hcontained
    apply hcontained.mono
    intro s hs
    obtain ⟨raw, hraw, hread⟩ := List.mem_filterMap.1 hs
    obtain ⟨rs, -, hp⟩ := hunderstood
    exact List.mem_filterMap.2 ⟨raw, mem_lines_of_later hp hraw, hread⟩
  · intro hstray
    constructor
    · intro x values hmem
      rcases hunderstood.statement_cases hmem with hbody | ⟨p, hload⟩ | ⟨raw, hraw, hread⟩
      · cases List.all_eq_true.1 h.all_isCode _ hbody
      · cases hload
      · exact hstray.data x values (List.mem_filterMap.2 ⟨raw, hraw, hread⟩)
    · intro op hop x hmem hx
      rcases hunderstood.statement_cases hmem with hbody | ⟨p, hload⟩ | ⟨raw, hraw, hread⟩
      · -- a branch of the body goes to a label of the body, and no cell has its name
        obtain ⟨l, hl, hmark⟩ := h.branches (fun _ hs => hs) op hop _ hbody
        obtain rfl : x = l.name := Param.symbol.inj (Option.some.inj hl)
        have hnames := h.nodup_names
        rw [Emission.program, Statement.names_append, List.nodup_append] at hnames
        exact hnames.2.2 l.name (List.mem_filterMap.2 ⟨_, hmark, rfl⟩) l.name
          (List.mem_cons_of_mem _ hx) rfl
      · obtain ⟨rfl, -⟩ := Statement.code.inj hload
        exact absurd hop (by decide)
      · exact hstray.branch op hop x (List.mem_filterMap.2 ⟨raw, hraw, hread⟩) hx

/-- **The text of a linked program** has code in front of data, and the code is contained exactly when
    the stray lines are. -/
theorem fronted_of_link {n : Node} {asm : Assembly} (h : link n = .ok asm) :
    ∃ t code, assemble t = .ok asm ∧ Fronted t code n.emission.cells ∧
      (Contained code n.emission.cells ↔ n.ContainedTargets) := by
  obtain ⟨t, hc, ha⟩ := assemble_of_link h
  obtain ⟨ns, last, ks, rfl, hcode, rfl⟩ := compile_derived hc
  have hiff := hcode.contained_iff
  rw [Node.strayLines, ← Node.tableTargets_program, ← Node.strayLines] at hiff
  obtain ⟨behind, hlines, hbehind, -⟩ := hcode.lines_program
  refine ⟨_, _, ha, ⟨?_, ?_, ?_, ?_⟩, hiff⟩
  · rw [Text.statements, hlines, List.filterMap_append, hbehind]
  · intro s hs
    exact Emission.eq_data_of_mem_cells hs
  · have hnames := hcode.nodup_names
    rw [Emission.program, Statement.names_append, List.nodup_append] at hnames
    exact (List.nodup_cons.1 hnames.2.1).1
  · intro op hop param hmem
    obtain ⟨raw, -, hread⟩ := List.mem_filterMap.1 hmem
    exact Statement.symbol_of_branch hop (Statement.ofLine?_eq_some_iff.1 hread)

/-! ## Execution -/

/-- **Where an instruction goes**: to the next word, or to the operand of a branch. -/
theorem pc_of_execute {op : Opcode} {v : UInt16} {m m' : Machine}
    (h : Machine.execute op v m = some m') :
    m'.pc = m.pc + 1 ∨ op ∈ Code.branchOpcodes ∧ m'.pc = v := by
  have hbranch : ∀ taken : Bool, some (m.branch taken v) = some m' → m'.pc = m.pc + 1 ∨ m'.pc = v := by
    intro taken htaken
    obtain rfl := Option.some.inj htaken
    cases taken with
    | false => exact .inl rfl
    | true => exact .inr rfl
  cases op with
  | b => exact (hbranch _ h).imp_right fun hv => ⟨by decide, hv⟩
  | beq => exact (hbranch _ h).imp_right fun hv => ⟨by decide, hv⟩
  | bne => exact (hbranch _ h).imp_right fun hv => ⟨by decide, hv⟩
  | bcc => exact (hbranch _ h).imp_right fun hv => ⟨by decide, hv⟩
  | and => cases h
  | lsr => cases h
  | _ =>
    obtain rfl := Option.some.inj h
    exact .inl rfl

namespace ClosedAt

variable {t : Text} {asm : Assembly} {w : Nat} {m m' : Machine} (hc : ClosedAt asm w)
  (h : assemble t = .ok asm)
include hc h

/-- **Inside the code** there is an instruction to fetch. -/
theorem exists_fetch (hm : m.pc.toNat ≤ w) :
    ∃ r ∈ asm.records, ∃ op v, r.word = .instruction op v ∧
      fetch asm.records m.pc = some (.instruction op v) := by
  obtain ⟨-, q, hq, hlast, -⟩ := hc.halt
  obtain ⟨r, hr, haddress⟩ := Layout.exists_record_of_le h hq (a := m.pc.toNat) (by omega)
  obtain ⟨op, v, hword⟩ := (hc.code r hr).2 (by omega)
  have hfetch := fetch_of_assemble h hr
  rw [UInt16.toNat_inj.1 haddress, hword] at hfetch
  exact ⟨r, hr, op, v, hword, hfetch⟩

/-- **One instruction** stays inside the code. -/
theorem execute_le {op : Opcode} {v : UInt16} (hm : m.pc.toNat ≤ w)
    (hfetch : fetch asm.records m.pc = some (.instruction op v))
    (hexecute : Machine.execute op v m = some m') : m'.pc.toNat ≤ w := by
  by_cases hlast : m.pc.toNat = w
  · -- the halt loop goes to itself
    obtain ⟨-, q, hq, haddress, hloop⟩ := hc.halt
    obtain heq : q.address = m.pc := UInt16.toNat_inj.1 (haddress.trans hlast.symm)
    have hself := fetch_of_assemble h hq
    rw [heq, hfetch, hloop, heq] at hself
    obtain ⟨rfl, rfl⟩ := Word.instruction.inj (Option.some.inj hself)
    obtain rfl := Option.some.inj hexecute
    exact hm
  · rcases pc_of_execute hexecute with hnext | ⟨hop, htarget⟩
    · obtain ⟨-, q, -, haddress, -⟩ := hc.halt
      have hword := q.address.toNat_lt
      rw [hnext, UInt16.toNat_add, show (1 : UInt16).toNat = 1 from rfl, Nat.mod_eq_of_lt (by omega)]
      omega
    · obtain ⟨r, hr, op', v', hword, hsame⟩ := hc.exists_fetch h hm
      rw [hfetch] at hsame
      obtain ⟨rfl, rfl⟩ := Word.instruction.inj (Option.some.inj hsame)
      obtain ⟨q, hq, haddress, hinstruction⟩ := hc.branch r hr op hop v hword
      rw [htarget, ← haddress]
      exact (hc.code q hq).1 hinstruction

/-- **A run** stays inside the code. -/
theorem of_reaches (hm : m.pc.toNat ≤ w) (hr : Reaches asm.records m m') : m'.pc.toNat ≤ w := by
  obtain ⟨k, hk⟩ := hr
  induction k generalizing m with
  | zero =>
    obtain rfl := Option.some.inj hk
    exact hm
  | succ k ih =>
    obtain ⟨next, hstep, hrest⟩ := Option.bind_eq_some_iff.1 hk
    obtain ⟨-, -, op, v, -, hfetch⟩ := hc.exists_fetch h hm
    rw [Machine.step, hfetch] at hstep
    exact ih (hc.execute_le h hm hfetch hstep) hrest

end ClosedAt

/-! ## The whole -/

/-- **Control flow is closed.**  What a generator appends for a statement of identifiers is enclosed, and
    neither it nor an enclosed segment with label numbers all before or all behind its own has a branch
    into the other.  In a linked program the instructions are a first stretch of the records whose last
    one is the halt loop, with branches to instructions only, exactly when the lines that names of
    assigned tables start are contained, as with identifiers they are; and then a run that starts at
    address zero always finds an instruction, and goes on at the next word or at the operand of a
    branch, inside the stretch. -/
theorem control_flow_closed (n : Node) :
    (∀ g g' : Generator, n.WellNamed → g.run (statement n) = (.ok (), g') →
      ∃ segment, g'.streams.body = g.streams.body ++ segment ∧
        Enclosed g.names.labels g'.names.labels segment ∧
        ∀ lo hi other, Enclosed lo hi other → hi ≤ g.names.labels ∨ g'.names.labels ≤ lo →
          Avoids segment other ∧ Avoids other segment) ∧
    ∀ asm : Assembly, link n = .ok asm →
      ((∃ w, ClosedAt asm w) ↔ n.ContainedTargets) ∧
      ((∀ x ∈ n.tableTargets, x.isIdentifier = true) → n.ContainedTargets) ∧
      ∀ w, ClosedAt asm w → ∀ m m', m.pc = 0 → Reaches asm.records m m' → m'.pc.toNat ≤ w ∧
        ∃ op v, fetch asm.records m'.pc = some (.instruction op v) ∧
          ∀ m'', Machine.execute op v m' = some m'' → m''.pc.toNat ≤ w ∧
            (m''.pc = m'.pc + 1 ∨ op ∈ Code.branchOpcodes ∧ m''.pc = v) := by
  constructor
  · intro g g' hn hrun
    obtain ⟨segment, hbody, henclosed⟩ := enclosed_of_statement hn hrun
    refine ⟨segment, hbody, henclosed, ?_⟩
    intro lo hi other hother hnumbers
    rcases hnumbers with hbefore | hbehind
    · exact (hother.apart henclosed hbefore).symm
    · exact henclosed.apart hother hbehind
  · intro asm hlink
    obtain ⟨t, code, h, hf, hiff⟩ := fronted_of_link hlink
    refine ⟨?_, Node.containedTargets_of_identifiers, ?_⟩
    · rw [← hiff]
      constructor
      · rintro ⟨w, hw⟩
        exact hf.contained_of_closedAt h hw
      · intro hcontained
        exact ⟨_, hf.closedAt_of_contained h hcontained⟩
    · intro w hw m m' hm hreaches
      have hle : m'.pc.toNat ≤ w := hw.of_reaches h (by rw [hm]; exact Nat.zero_le w) hreaches
      obtain ⟨-, -, op, v, -, hfetch⟩ := hw.exists_fetch h hle
      refine ⟨hle, op, v, hfetch, ?_⟩
      intro m'' hexecute
      exact ⟨hw.execute_le h hle hfetch hexecute, pc_of_execute hexecute⟩

/-- A loop with a conditional in it, both on comparisons. -/
def nestedBranches : Node :=
  .whileLoop (.binary .lt (.ident ['x']) (.intLit ['3']))
    (.block [.ifElse (.binary .eq (.ident ['x']) (.intLit ['1']))
        (.block [.assignAt screenName (.ident ['x']) (.intLit ['7'])])
        (some (.block [.assignAt "t".toList (.intLit ['0']) (.ident ['x'])])),
      .assign ['x'] (.binary .add (.ident ['x']) (.intLit ['1']))])

/-- The name of this table starts a line that branches to a variable. -/
def strayBranch : Node :=
  .program [.tableInit "t".toList ['1'] ['0'], .assign ['x'] (.intLit ['1']),
    .assignAt "t\n    B var_x".toList (.intLit ['0']) (.intLit ['1'])]

/-- Twice the loop, from counters somewhere: two segments apart; in a program of its own: closed control
    flow, and a run from the start that stays inside.  The stray branch links all the same. -/
theorem control_flow_of_nestedBranches :
    (∃ g g' as bs, (Generator.withNames ⟨4, 7⟩).run (statement nestedBranches) = (.ok (), g) ∧
      g.run (statement nestedBranches) = (.ok (), g') ∧ g'.streams.body = as ++ bs ∧
      Enclosed 7 g.names.labels as ∧ Enclosed g.names.labels g'.names.labels bs ∧
      Avoids as bs ∧ Avoids bs as) ∧
    (∃ asm w, link (.program [.tableInit "t".toList ['1'] ['0'], nestedBranches]) = .ok asm ∧
      ClosedAt asm w ∧ ∀ m, Reaches asm.records (Machine.boot asm.records) m →
        ∃ op v, fetch asm.records m.pc = some (.instruction op v)) ∧
    ∃ asm, link strayBranch = .ok asm ∧ ¬ ∃ w, ClosedAt asm w := by
  have hnamed : nestedBranches.WellNamed := by decide
  refine ⟨?_, ?_, ?_⟩
  · obtain ⟨g, g', hrun, hrun'⟩ : ∃ g g',
        (Generator.withNames ⟨4, 7⟩).run (statement nestedBranches) = (.ok (), g) ∧
          g.run (statement nestedBranches) = (.ok (), g') := ⟨_, _, rfl, rfl⟩
    obtain ⟨as, has, hea, hapart⟩ := (control_flow_closed nestedBranches).1 _ _ hnamed hrun
    obtain ⟨bs, hbs, heb, -⟩ := (control_flow_closed nestedBranches).1 _ _ hnamed hrun'
    refine ⟨g, g', as, bs, hrun, hrun', ?_, hea, heb, hapart _ _ bs heb (.inr (Nat.le_refl _))⟩
    rw [hbs, has]
    rfl
  · have hok : (link (.program [.tableInit "t".toList ['1'] ['0'], nestedBranches])).toOption.isSome =
        true := by decide +kernel
    cases hlink : link (.program [.tableInit "t".toList ['1'] ['0'], nestedBranches]) with
    | error fault => rw [hlink] at hok; cases hok
    | ok asm =>
      obtain ⟨hiff, hidentifiers, hruns⟩ := (control_flow_closed _).2 asm hlink
      obtain ⟨w, hw⟩ := hiff.2 (hidentifiers (by decide))
      refine ⟨asm, w, rfl, hw, fun m hm => ?_⟩
      obtain ⟨-, op, v, hfetch, -⟩ := hruns w hw _ m rfl hm
      exact ⟨op, v, hfetch⟩
  · have hok : (link strayBranch).toOption.isSome = true := by decide +kernel
    cases hlink : link strayBranch with
    | error fault => rw [hlink] at hok; cases hok
    | ok asm =>
      refine ⟨asm, rfl, fun hclosed => ?_⟩
      have hcontained := ((control_flow_closed strayBranch).2 asm hlink).1.1 hclosed
      refine hcontained.branch .b (by decide) "var_x".toList ?_ (by decide +kernel)
      exact List.mem_filterMap.2 ⟨"    B var_x".toList, by decide +kernel, rfl⟩

end Minicore
