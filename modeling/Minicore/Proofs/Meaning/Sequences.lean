/-
  SEQUENCES — what the instruction sequences of the generator do.

  Problem: code is written in small sequences (load, store, compare, test), and a proof about a node
  should see what a sequence does to the SITES, not its instructions.

  1. **Program** — `At ss a code`: the statements `code` stand behind the first `a` words of `ss`.
     `Stands ss s t a out m`: the machine `m` is at the word `a`, its memory holds the store `s` and the
     temporaries `t`, and it has emitted `out`.

  2. **One instruction** — at an instruction, a step executes it with its operand resolved
     (`Linked.step`); a branch goes to the mark of its label (`Linked.branch`).

  3. **Sequences** — each one moves the machine behind itself.  What they leave in `R0` and `R3` is
     told, and nothing else: registers hold values within one node only.
-/
import Minicore.Proofs.Meaning.Carried
import Minicore.Proofs.Meaning.Sites

namespace Minicore

open Machine (Reaches execute)
open Statement (words names)

/-! ## Code in a program -/

/-- These statements stand behind that many words of the program. -/
def At (ss : List Statement) (a : Nat) (code : List Statement) : Prop :=
  ∃ before after, ss = before ++ (code ++ after) ∧ words before = a

namespace At

variable {ss code rest : List Statement} {s : Statement} {a : Nat}

theorem left (h : At ss a (code ++ rest)) : At ss a code := by
  obtain ⟨before, after, rfl, ha⟩ := h
  exact ⟨before, rest ++ after, by rw [List.append_assoc], ha⟩

theorem right (h : At ss a (code ++ rest)) : At ss (a + words code) rest := by
  obtain ⟨before, after, rfl, rfl⟩ := h
  refine ⟨before ++ code, after, ?_, Statement.words_append before code⟩
  rw [List.append_assoc, List.append_assoc]

/-- Three stretches, the first two as one. -/
theorem regroup {last : List Statement} (h : At ss a (code ++ (rest ++ last))) :
    At ss a ((code ++ rest) ++ last) := by
  rw [List.append_assoc]
  exact h

theorem tail (h : At ss a (s :: code)) : At ss (a + s.width) code := by
  obtain ⟨before, after, rfl, rfl⟩ := h
  refine ⟨before ++ [s], after, ?_, ?_⟩
  · rw [List.append_assoc]
    rfl
  · rw [Statement.words_append, Statement.words_cons, Statement.words_nil, Nat.add_zero]

end At

/-! ## Words of code -/

section Words

variable (c d : Cell) (op : Opcode) (l : Label)

@[simp] theorem words_load0 : words (Code.load0 c) = 2 := rfl

@[simp] theorem words_load3 : words (Code.load3 c) = 2 := rfl

@[simp] theorem words_store : words (Code.store c) = 2 := rfl

@[simp] theorem words_copy : words (Code.copy c d) = 4 := rfl

@[simp] theorem words_test : words (Code.test c) = 4 := rfl

@[simp] theorem words_tableStore (x : Text) : words (tableStore x c d) = 7 := rfl

@[simp] theorem width_code (param : Option Param) : (Statement.code op param).width = 1 := rfl

@[simp] theorem width_branch : (Code.branch op l).width = 1 := rfl

@[simp] theorem width_mark : (Code.mark l).width = 0 := rfl

@[simp] theorem body_code (ss : List Statement) : (Emission.code ss).body = ss := rfl

end Words

/-! ## States -/

/-- The machine is at the word `a` and holds the store `s` and the temporaries `t`. -/
structure Stands (ss : List Statement) (s : Store) (t : Nat → UInt16) (a : Nat) (out : List UInt16)
    (m : Machine) : Prop where
  pc : m.pc = UInt16.ofNat a
  emitted : m.emitted = out
  memory : Represents ss s t m.memory

namespace Stands

variable {ss : List Statement} {s : Store} {t : Nat → UInt16} {a b : Nat} {out : List UInt16}
  {m m' : Machine}

/-- An instruction that leaves the cells alone moves on by one word. -/
theorem next (h : Stands ss s t a out m) (hpc : m'.pc = m.pc + 1) (hout : m'.emitted = m.emitted)
    (hmemory : m'.memory = m.memory) : Stands ss s t (a + 1) out m' := by
  refine ⟨?_, hout.trans h.emitted, by rw [hmemory]; exact h.memory⟩
  rw [hpc, h.pc, UInt16.ofNat_add]
  rfl

/-- The word may be counted in another way. -/
theorem at_eq (h : Stands ss s t a out m) (hab : a = b) : Stands ss s t b out m := hab ▸ h

/-- A branch goes to its target or to the next word. -/
theorem branch (h : Stands ss s t a out m) (taken : Bool) :
    Stands ss s t (if taken = true then b else a + 1) out (m.branch taken (UInt16.ofNat b)) := by
  cases taken with
  | false => exact h.next rfl rfl rfl
  | true => exact ⟨rfl, h.emitted, h.memory⟩

end Stands

/-! ## Linked programs -/

/-- The assembly carries the program, and every cell in it is declared with one word. -/
structure Linked (asm : Assembly) (ss : List Statement) : Prop extends Carries asm ss where
  cells : ∀ s ∈ ss, ∀ c : Cell, s.name? = some c.name → ∃ v, s = .data c.name [v]

namespace Linked

variable {asm : Assembly} {ss code rest : List Statement} {s s' : Store} {t t' : Nat → UInt16}
  {a b : Nat} {out : List UInt16} {m : Machine} {c : Cell} {l : Label}

/-! ## One instruction -/

/-- At an instruction, a step executes it. -/
theorem step (h : Linked asm ss) {op : Opcode} {param : Option Param}
    (hat : At ss a (.code op param :: code)) (hm : Stands ss s t a out m) :
    ∃ v, Layout.Resolves asm.layout.map param v ∧
      Machine.step asm.records m = execute op v m := by
  obtain ⟨before, after, hss, rfl⟩ := hat
  obtain ⟨v, hv, hfetch⟩ := h.code hss
  refine ⟨v, hv, ?_⟩
  rw [Machine.step, hm.pc, hfetch]

/-- The address of a cell is where the cell lies. -/
theorem lies_of_address (h : Linked asm ss) {v : UInt16}
    (hv : asm.layout.map.address? c.name = some v) : ∃ j, Lies ss (.cell c) j ∧ v = UInt16.ofNat j := by
  obtain ⟨before, st, after, hss, hname⟩ := h.defined hv
  obtain ⟨w, rfl⟩ := h.cells st (by rw [hss]; simp) c hname
  refine ⟨words before, .declared (p := .cell c) rfl hss Nat.zero_lt_one, ?_⟩
  exact Option.some.inj (hv.symm.trans (h.address hss rfl))

/-- The base and the index of a table entry add up to where the entry lies. -/
theorem base_add (h : Linked asm ss) {x : Text} {i v : UInt16} {j : Nat}
    (hlies : Lies ss (.entry x i) j) (hv : Layout.Resolves asm.layout.map (some (tableBase x)) v) :
    v + i = UInt16.ofNat j := by
  cases hlies with
  | @declared before _ _ _ hd hss _ =>
    have hx : x ≠ screenName := of_decide_eq_true hd
    rw [tableBase, if_neg hx] at hv
    have haddress := h.address hss rfl
    obtain rfl : v = UInt16.ofNat (words before) := Option.some.inj (hv.symm.trans haddress)
    rw [UInt16.ofNat_add]
    show _ + i = _ + UInt16.ofNat i.toNat
    rw [UInt16.ofNat_toNat]
  | display _ =>
    obtain rfl : v = screenBase := hv
    rw [UInt16.ofNat_add, UInt16.ofNat_toNat, UInt16.ofNat_toNat]

/-- The address register gets the address of a cell. -/
theorem cellAddress (h : Linked asm ss) (hat : At ss a (Code.address c.name :: code))
    (hm : Stands ss s t a out m) :
    ∃ m' j, Machine.step asm.records m = some m' ∧ Stands ss s t (a + 1) out m' ∧
      Lies ss (.cell c) j ∧ m'.r1 = UInt16.ofNat j ∧ m'.r0 = m.r0 ∧ m'.r3 = m.r3 := by
  obtain ⟨v, hv, hstep⟩ := h.step hat hm
  obtain ⟨j, hj, rfl⟩ := h.lies_of_address hv
  exact ⟨_, j, hstep, hm.next rfl rfl rfl, hj, rfl, rfl, rfl⟩

theorem r0_branch (m : Machine) (taken : Bool) (v : UInt16) : (m.branch taken v).r0 = m.r0 := by
  cases taken with
  | false => rfl
  | true => rfl

/-- A jump is a branch that is always taken. -/
theorem execute_b (v : UInt16) (m : Machine) :
    execute .b v m = some (m.branch ((fun _ => true) m) v) := rfl

/-- A branch that is taken goes to the mark of its label. -/
theorem branch (h : Linked asm ss) {op : Opcode} {flag : Machine → Bool}
    (hop : ∀ v m, execute op v m = some (m.branch (flag m) v))
    (hat : At ss a (Code.branch op l :: code)) (htarget : At ss b (Code.mark l :: rest))
    (hm : Stands ss s t a out m) :
    ∃ m', Machine.step asm.records m = some m' ∧
      Stands ss s t (if flag m = true then b else a + 1) out m' ∧ m'.r0 = m.r0 := by
  obtain ⟨v, hv, hstep⟩ := h.step hat hm
  obtain ⟨before, after, hss, rfl⟩ := htarget
  obtain rfl : v = UInt16.ofNat (words before) := Option.some.inj (hv.symm.trans (h.address hss rfl))
  rw [hop] at hstep
  exact ⟨_, hstep, hm.branch (flag m), r0_branch m (flag m) _⟩

/-! ## Loads and stores -/

theorem load0 (h : Linked asm ss) (hat : At ss a (Code.load0 c)) (hm : Stands ss s t a out m) :
    ∃ m', Reaches asm.records m m' ∧ Stands ss s t (a + 2) out m' ∧
      m'.r0 = contents s t (.cell c) ∧ m'.r3 = m.r3 := by
  obtain ⟨m₁, j, hstep, hm₁, hj, h1, -, h3⟩ := h.cellAddress hat hm
  obtain ⟨v, -, hstep'⟩ := h.step hat.tail hm₁
  refine ⟨_, .head hstep (.single hstep'), hm₁.next rfl rfl rfl, ?_, h3⟩
  show m₁.memory m₁.r1 = _
  rw [h1]
  exact hm₁.memory _ _ hj

theorem load3 (h : Linked asm ss) (hat : At ss a (Code.load3 c)) (hm : Stands ss s t a out m) :
    ∃ m', Reaches asm.records m m' ∧ Stands ss s t (a + 2) out m' ∧
      m'.r3 = contents s t (.cell c) ∧ m'.r0 = m.r0 := by
  obtain ⟨m₁, j, hstep, hm₁, hj, h1, h0, -⟩ := h.cellAddress hat hm
  obtain ⟨v, -, hstep'⟩ := h.step hat.tail hm₁
  refine ⟨_, .head hstep (.single hstep'), hm₁.next rfl rfl rfl, ?_, h0⟩
  show m₁.memory m₁.r1 = _
  rw [h1]
  exact hm₁.memory _ _ hj

/-- The cell gets what `R0` holds. -/
theorem store (h : Linked asm ss) (hat : At ss a (Code.store c)) (hm : Stands ss s t a out m)
    (hputs : Puts (.cell c) m.r0 s t s' t') :
    ∃ m', Reaches asm.records m m' ∧ Stands ss s' t' (a + 2) out m' := by
  obtain ⟨m₁, j, hstep, hm₁, hj, h1, h0, -⟩ := h.cellAddress hat hm
  obtain ⟨v, -, hstep'⟩ := h.step hat.tail hm₁
  have hm₂ : Stands ss s t (a + 2) out m₁.next := hm₁.next rfl rfl rfl
  refine ⟨_, .head hstep (.single hstep'), hm₂.pc, hm₂.emitted, ?_⟩
  show Represents ss s' t' fun b => if b = m₁.r1 then m₁.r0 else m₁.memory b
  rw [h0, h1]
  exact hm₁.memory.write h.le_depth h.nodup hj hputs

/-- The second cell gets what the first holds. -/
theorem copy (h : Linked asm ss) {d : Cell} (hat : At ss a (Code.copy c d))
    (hm : Stands ss s t a out m) (hputs : Puts (.cell d) (contents s t (.cell c)) s t s' t') :
    ∃ m', Reaches asm.records m m' ∧ Stands ss s' t' (a + 4) out m' := by
  obtain ⟨m₁, hreach, hm₁, h0, -⟩ := h.load0 hat.left hm
  obtain ⟨m₂, hreach', hm₂⟩ := h.store hat.right hm₁ (h0 ▸ hputs)
  exact ⟨m₂, hreach.trans hreach', hm₂⟩

/-- The entry of the table gets what the cell `v` holds, its index being what the cell `i` holds. -/
theorem tableStore (h : Linked asm ss) {x : Text} {i v : Cell} {j : Nat}
    (hat : At ss a (Minicore.tableStore x i v)) (hm : Stands ss s t a out m)
    (hlies : Lies ss (.entry x (contents s t (.cell i))) j)
    (hputs : Puts (.entry x (contents s t (.cell i))) (contents s t (.cell v)) s t s' t') :
    ∃ m', Reaches asm.records m m' ∧ Stands ss s' t' (a + 7) out m' := by
  obtain ⟨m₁, hreach₁, hm₁, h3, -⟩ := h.load3 hat.left.left hm
  obtain ⟨m₂, hreach₂, hm₂, h0, h3'⟩ := h.load0 hat.left.right hm₁
  have hrest := hat.right
  -- the base, the index added to it, and the store behind
  obtain ⟨base, hbase, hstep₃⟩ := h.step hrest hm₂
  have hm₃ : Stands ss s t (a + 5) out { m₂ with r1 := base }.next := hm₂.next rfl rfl rfl
  obtain ⟨_, -, hstep₄⟩ := h.step hrest.tail hm₃
  have hm₄ : Stands ss s t (a + 6) out { m₂ with r1 := base + m₂.r0 }.next.next :=
    hm₃.next rfl rfl rfl
  obtain ⟨_, -, hstep₅⟩ := h.step hrest.tail.tail hm₄
  have hm₅ : Stands ss s t (a + 7) out { m₂ with r1 := base + m₂.r0 }.next.next.next :=
    hm₄.next rfl rfl rfl
  have hstore : Reaches asm.records m₂ _ := .head hstep₃ (.head hstep₄ (.single hstep₅))
  refine ⟨_, hreach₁.trans (hreach₂.trans hstore), hm₅.pc, hm₅.emitted, ?_⟩
  show Represents ss s' t' fun b => if b = base + m₂.r0 then m₂.r3 else m₂.memory b
  rw [h0, h.base_add hlies hbase, h3', h3]
  exact hm₂.memory.write h.le_depth h.nodup hlies hputs

/-- A pause is emitted. -/
theorem wait (h : Linked asm ss) {d : UInt16}
    (hat : At ss a (.code .wait (some (.literal d)) :: code)) (hm : Stands ss s t a out m) :
    ∃ m', Reaches asm.records m m' ∧ Stands ss s t (a + 1) (out ++ [d]) m' := by
  obtain ⟨v, rfl, hstep⟩ := h.step hat hm
  have hm₁ : Stands ss s t (a + 1) out m.next := hm.next rfl rfl rfl
  refine ⟨_, .single hstep, hm₁.pc, ?_, hm₁.memory⟩
  show m.emitted ++ [v] = out ++ [v]
  rw [hm.emitted]

/-! ## Comparisons and operators -/

/-- The machine after `R0` and `R3` are compared. -/
def compared (m : Machine) : Machine :=
  { m with equal := m.r0 == m.r3, less := decide (m.r0 < m.r3) }.next

/-- A comparison leaves one in `R0` if its branch is taken, else zero. -/
theorem compare (h : Linked asm ss) {op : Opcode} {flag : Machine → Bool} {n : Nat}
    (hop : ∀ v m, execute op v m = some (m.branch (flag m) v)) (hat : At ss a (Code.compare op n))
    (hm : Stands ss s t a out m) :
    ∃ m', Reaches asm.records m m' ∧ Stands ss s t (a + 7) out m' ∧
      m'.r0 = if flag (compared m) = true then 1 else 0 := by
  -- the five parts: comparison and branch, the false value, the jump and the mark, the true value, the end
  have hload := hat.left.left.left.right
  have hjump := hat.left.left.right
  have hholds := hjump.tail
  have hload' := hat.left.right
  have hjoin := hat.right
  obtain ⟨_, -, hstep⟩ := h.step hat.left.left.left.left hm
  have hm₁ : Stands ss s t (a + 1) out (compared m) := hm.next rfl rfl rfl
  obtain ⟨m₂, hstep₂, hm₂, -⟩ := h.branch hop hat.left.left.left.left.tail hholds hm₁
  by_cases hflag : flag (compared m) = true
  · rw [if_pos hflag] at hm₂ ⊢
    obtain ⟨m₃, hreach, hm₃, h0, -⟩ := h.load0 hload' hm₂
    exact ⟨m₃, .head hstep (.head hstep₂ hreach), hm₃, h0⟩
  · rw [if_neg hflag] at hm₂ ⊢
    obtain ⟨m₃, hreach, hm₃, h0, -⟩ := h.load0 hload hm₂
    obtain ⟨m₄, hstep₄, hm₄, h0'⟩ := h.branch execute_b hjump hjoin hm₃
    exact ⟨m₄, .head hstep (.head hstep₂ (hreach.trans (.single hstep₄))), hm₄, h0'.trans h0⟩

/-- The code of an operator leaves its value in `R0`. -/
theorem operator (h : Linked asm ss) {op : Operator} {n : Nat} (hat : At ss a (operatorCode op n))
    (hm : Stands ss s t a out m) :
    ∃ m', Reaches asm.records m m' ∧ Stands ss s t (a + words (operatorCode op n)) out m' ∧
      m'.r0 = op.apply m.r0 m.r3 := by
  cases op with
  | add =>
    obtain ⟨_, -, hstep⟩ := h.step hat hm
    exact ⟨_, .single hstep, hm.next rfl rfl rfl, rfl⟩
  | sub =>
    obtain ⟨_, -, hstep⟩ := h.step hat hm
    exact ⟨_, .single hstep, hm.next rfl rfl rfl, rfl⟩
  | mul =>
    obtain ⟨_, -, hstep⟩ := h.step hat hm
    exact ⟨_, .single hstep, hm.next rfl rfl rfl, rfl⟩
  | eq =>
    have hop : ∀ v m, execute .beq v m = some (m.branch m.equal v) := fun _ _ => rfl
    obtain ⟨m', hreach, hm', h0⟩ := h.compare hop hat hm
    refine ⟨m', hreach, hm', ?_⟩
    rw [h0]
    show (if (m.r0 == m.r3) = true then 1 else 0) = if m.r0 = m.r3 then 1 else 0
    simp only [beq_iff_eq]
  | lt =>
    have hop : ∀ v m, execute .bcc v m = some (m.branch m.less v) := fun _ _ => rfl
    obtain ⟨m', hreach, hm', h0⟩ := h.compare hop hat hm
    refine ⟨m', hreach, hm', ?_⟩
    rw [h0]
    show (if decide (m.r0 < m.r3) = true then 1 else 0) = if m.r0 < m.r3 then 1 else 0
    simp only [decide_eq_true_eq]

/-- A test goes on behind itself if the cell holds one, and else to the mark of its label. -/
theorem test (h : Linked asm ss) (hat : At ss a (Code.test c ++ [Code.branch .bne l]))
    (htarget : At ss b (Code.mark l :: rest)) (hm : Stands ss s t a out m) :
    ∃ m', Reaches asm.records m m' ∧
      Stands ss s t (if contents s t (.cell c) = 1 then a + 5 else b) out m' := by
  obtain ⟨m₁, hreach, hm₁, h0, -⟩ := h.load0 hat.left.left hm
  have hrest := hat.left.right
  obtain ⟨v, rfl, hstep₂⟩ := h.step hrest hm₁
  have hm₂ : Stands ss s t (a + 3) out { m₁ with r3 := 1 }.next := hm₁.next rfl rfl rfl
  obtain ⟨_, -, hstep₃⟩ := h.step hrest.tail hm₂
  have hm₃ : Stands ss s t (a + 4) out (compared { m₁ with r3 := 1 }.next) := hm₂.next rfl rfl rfl
  have hop : ∀ v m, execute .bne v m = some (m.branch (!m.equal) v) := fun _ _ => rfl
  obtain ⟨m₄, hstep₄, hm₄, -⟩ := h.branch hop hat.right htarget hm₃
  refine ⟨m₄, hreach.trans (.head hstep₂ (.head hstep₃ (.single hstep₄))), ?_⟩
  -- not equal to one is what the branch is taken on
  have hequal : (compared { m₁ with r3 := 1 }.next).equal = (m₁.r0 == 1) := rfl
  rw [hequal, h0] at hm₄
  by_cases hone : contents s t (.cell c) = 1
  · rw [if_pos hone]
    rw [hone] at hm₄
    exact hm₄
  · rw [if_neg hone]
    rw [beq_eq_false_iff_ne.2 hone] at hm₄
    exact hm₄

/-- A jump goes to the mark of its label. -/
theorem jump (h : Linked asm ss) (hat : At ss a (Code.branch .b l :: code))
    (htarget : At ss b (Code.mark l :: rest)) (hm : Stands ss s t a out m) :
    ∃ m', Reaches asm.records m m' ∧ Stands ss s t b out m' := by
  obtain ⟨m', hstep, hm', -⟩ := h.branch execute_b hat htarget hm
  exact ⟨m', .single hstep, hm'⟩

end Linked

end Minicore
