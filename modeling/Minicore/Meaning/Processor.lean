/-
  The PROCESSOR — what running the records of an image does.

  Problem: an image is words at addresses; what a program MEANS is what a machine does with them.  The
  machine is outside, and only its instructions are told: the shape of each says which register gets
  what.

  1. **Program** — a `Machine` has an address register `R1`, two operand registers, two flags that a
     comparison sets, 16-bit cells, and the waits it has emitted.  `execute` is one instruction;
     `step` fetches the record at the program counter and executes it; `run` takes so many steps.

  2. **Records and cells** — instructions are fetched from the RECORDS, whatever the cells hold; the
     cells start with the data words of the records (`Loaded`) and are otherwise whatever they were.

  3. **No step** — a data word and an address without a record cannot be executed; nor can `AND` and
     `LSR`, which no generated program contains.
-/
import Minicore.Assembly.Record

namespace Minicore

/-! ## States -/

/-- The state of the machine. -/
structure Machine where
  pc : UInt16
  r0 : UInt16
  r1 : UInt16
  r3 : UInt16
  /-- The last comparison was of equal values. -/
  equal : Bool
  /-- The last comparison was of a smaller value with a larger one. -/
  less : Bool
  memory : UInt16 → UInt16
  /-- The operands of the waits so far, in order. -/
  emitted : List UInt16

namespace Machine

/-- The machine at the next word. -/
def next (m : Machine) : Machine := { m with pc := m.pc + 1 }

/-- The machine with `v` in the cell that `R1` addresses. -/
def write (m : Machine) (v : UInt16) : Machine :=
  { m with memory := fun a => if a = m.r1 then v else m.memory a }

/-- The machine at the target of a branch, if it is taken, else at the next word. -/
def branch (m : Machine) (taken : Bool) (target : UInt16) : Machine :=
  if taken then { m with pc := target } else m.next

/-! ## Instructions -/

/-- One instruction with its operand. -/
def execute : Opcode → UInt16 → Machine → Option Machine
  | .mov1, v, m => some { m with r1 := v }.next
  | .mov0, v, m => some { m with r0 := v }.next
  | .mov3, v, m => some { m with r3 := v }.next
  | .ldr0, _, m => some { m with r0 := m.memory m.r1 }.next
  | .ldr3, _, m => some { m with r3 := m.memory m.r1 }.next
  | .ldr3i, _, m => some { m with r3 := m.memory m.r3 }.next
  | .str0, _, m => some (m.write m.r0).next
  | .str3, _, m => some (m.write m.r3).next
  | .cmp, _, m => some { m with equal := m.r0 == m.r3, less := decide (m.r0 < m.r3) }.next
  | .beq, v, m => some (m.branch m.equal v)
  | .bne, v, m => some (m.branch (!m.equal) v)
  | .bcc, v, m => some (m.branch m.less v)
  | .b, v, m => some (m.branch true v)
  | .addp, _, m => some { m with r1 := m.r1 + m.r0 }.next
  | .addi, v, m => some { m with r0 := m.r0 + v }.next
  | .add, _, m => some { m with r0 := m.r0 + m.r3 }.next
  | .sub, _, m => some { m with r0 := m.r0 - m.r3 }.next
  | .mul, _, m => some { m with r0 := m.r0 * m.r3 }.next
  | .dbl, _, m => some { m with r0 := m.r0 + m.r0 }.next
  | .mov30, _, m => some { m with r3 := m.r0 }.next
  | .wait, v, m => some { m with emitted := m.emitted ++ [v] }.next
  | .and, _, _ => none
  | .lsr, _, _ => none

/-! ## Runs -/

/-- The word of the record at that address. -/
def fetch (records : List Record) (a : UInt16) : Option Word :=
  (records.find? fun r => r.address == a).map Record.word

/-- One step, if there is an instruction to execute. -/
def step (records : List Record) (m : Machine) : Option Machine :=
  match fetch records m.pc with
  | some (.instruction op v) => execute op v m
  | _ => none

/-- That many steps. -/
def run (records : List Record) : Nat → Machine → Option Machine
  | 0, m => some m
  | n + 1, m => (step records m).bind (run records n)

/-- The second state comes after the first. -/
def Reaches (records : List Record) (m m' : Machine) : Prop := ∃ n, run records n m = some m'

/-- The machine that is switched on with these records: all else is zero. -/
def boot (records : List Record) : Machine where
  pc := 0
  r0 := 0
  r1 := 0
  r3 := 0
  equal := false
  less := false
  memory := fun a =>
    match fetch records a with
    | some (.data v) => v
    | _ => 0
  emitted := []

theorem memory_boot {records : List Record} {a v : UInt16} (h : fetch records a = some (.data v)) :
    (boot records).memory a = v := by
  simp only [boot, h]

/-- A state before the first step: at address zero, nothing emitted, and every data word of the records
    in its cell.  Registers, flags and all other cells are arbitrary. -/
structure Loaded (records : List Record) (m : Machine) : Prop where
  pc : m.pc = 0
  emitted : m.emitted = []
  data : ∀ r ∈ records, ∀ v, r.word = .data v → m.memory r.address = v

namespace Reaches

variable {records : List Record} {m m₁ m₂ : Machine}

theorem refl (m : Machine) : Reaches records m m := ⟨0, rfl⟩

theorem head (h : step records m = some m₁) (hr : Reaches records m₁ m₂) : Reaches records m m₂ := by
  obtain ⟨n, hn⟩ := hr
  exact ⟨n + 1, by rw [run, h]; exact hn⟩

theorem single (h : step records m = some m₁) : Reaches records m m₁ := head h (refl m₁)

theorem trans (h : Reaches records m m₁) (hr : Reaches records m₁ m₂) : Reaches records m m₂ := by
  obtain ⟨n, hn⟩ := h
  induction n generalizing m with
  | zero =>
    obtain rfl := Option.some.inj hn
    exact hr
  | succ n ih =>
    obtain ⟨next, hstep, hrest⟩ := Option.bind_eq_some_iff.1 hn
    exact head hstep (ih hrest)

end Reaches

end Machine

end Minicore
