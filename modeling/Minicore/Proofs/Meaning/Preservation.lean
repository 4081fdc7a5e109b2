/-
  PRESERVATION — running the image of a program is running the program.

  Problem: three stages turn a tree into records, and each has been understood on its own: the tree has
  code (derivations), the code is text that reads back as itself (readable code), and the text is words
  at addresses (placement, resolution).  Here they are put together.

  1. **Program** — a tree that links, with identifiers for its names; a machine on which its records are
     loaded, everything else being arbitrary; and an execution of the tree that ends, from the store at
     the start, with every store to a table inside the table.

  2. **Specification** (`runs_as_executed`) — from address zero the machine comes to the halt loop, and
     stays there.  It has emitted the pauses of the execution, in order, and every variable, every table
     and the display hold what the store at the end says.
-/
import Minicore.Proofs.Meaning.Loading
import Minicore.Proofs.Meaning.Simulation

namespace Minicore

open Machine (Reaches fetch)
open Statement (words names)

/-! ## Sites of the program -/

variable {asm : Assembly} {n : Node} {n₀ n₁ : Names} {e : Emission} {ks : List (Nat × UInt16)}

/-- A variable that is assigned lies at the address of its name. -/
theorem StatementCode.lies_of_assigned (hcode : StatementCode n n₀ n₁ e ks) (h : Linked asm e.program)
    {x : Text} (hx : x ∈ n.assigned) :
    ∃ j, asm.layout.map.address? (Cell.var x).name = some (UInt16.ofNat j) ∧
      Lies e.program (.cell (.var x)) j := by
  have hvar : Declares e (.cell (.var x)) [0] := .var ((hcode.mem_varNames_iff _).2 ⟨x, hx, rfl⟩)
  obtain ⟨before, after, hss⟩ := List.append_of_mem hvar.mem
  exact ⟨words before, h.address hss rfl, .declared (p := .cell (.var x)) rfl hss Nat.zero_lt_one⟩

/-- The entries of a declared table lie behind the address of the table. -/
theorem StatementCode.lies_of_table (hcode : StatementCode n n₀ n₁ e ks) (h : Linked asm e.program)
    {x : Text} {size default : UInt16} (hx : x ≠ screenName)
    (hfind : OrderedMap.find? n.tables x = some (size, default)) :
    ∃ a, asm.layout.map.address? (tableName x) = some a ∧ ∀ i, i < size →
      ∃ j, Lies e.program (.entry x i) j ∧ UInt16.ofNat j = a + i := by
  have htable : OrderedMap.find? e.tables (tableName x) =
      some (List.replicate size.toNat default) := by
    rw [hcode.find?_tables, hfind]
    rfl
  have hdeclares : Declares e (.entry x 0) (List.replicate size.toNat default) := .table htable
  obtain ⟨before, after, hss⟩ := List.append_of_mem hdeclares.mem
  refine ⟨UInt16.ofNat (words before), h.address hss rfl, fun i hi => ?_⟩
  have hlt : (Site.entry x i).offset < (List.replicate size.toNat default).length := by
    rw [List.length_replicate]
    exact UInt16.lt_iff_toNat_lt.1 hi
  refine ⟨words before + i.toNat, .declared (p := .entry x i) (decide_eq_true hx) hss hlt, ?_⟩
  rw [UInt16.ofNat_add, UInt16.ofNat_toNat]

/-- Stores inside the tables have addresses. -/
theorem StatementCode.addressed (hcode : StatementCode n n₀ n₁ e ks) (h : Linked asm e.program)
    {es : List Event} (hes : n.InBounds es) : Addressed e.program es := by
  intro x i v hmem
  have hcell := hes x i v hmem
  unfold Node.HasCell at hcell
  split at hcell
  · rename_i hx
    rw [hx]
    exact ⟨_, .display hcell⟩
  · rename_i hx
    obtain ⟨size, default, hfind, hi⟩ := hcell
    obtain ⟨_, -, hlies⟩ := hcode.lies_of_table h hx hfind
    obtain ⟨j, hj, -⟩ := hlies i hi
    exact ⟨j, hj⟩

/-! ## The halt loop -/

/-- Behind the code the machine is at a branch to itself, and stays. -/
theorem Linked.halted (h : Linked asm e.program) {s : Store} {t : Nat → UInt16} {out : List UInt16}
    {m : Machine} (hm : Stands e.program s t (words e.body) out m) :
    asm.layout.map.address? haltName = some m.pc ∧
      fetch asm.records m.pc = some (.instruction .b m.pc) ∧
      Machine.step asm.records m = some m := by
  have hstart : e.program =
      e.body ++ .label haltName :: (.code .b (some (.symbol haltName)) :: e.cells) := rfl
  have haddress : asm.layout.map.address? haltName = some (UInt16.ofNat (words e.body)) :=
    h.address hstart rfl
  have hhalt : e.program = (e.body ++ [.label haltName]) ++
      .code .b (some (.symbol haltName)) :: e.cells := by
    rw [Emission.program, List.append_assoc]
    rfl
  obtain ⟨v, hv, hfetch⟩ := h.code hhalt
  obtain rfl : v = UInt16.ofNat (words e.body) := Option.some.inj (hv.symm.trans haddress)
  have hwords : words (e.body ++ [.label haltName]) = words e.body := Statement.words_append _ _
  rw [hwords] at hfetch
  rw [← hm.pc] at haddress hfetch
  refine ⟨haddress, hfetch, ?_⟩
  rw [Machine.step, hfetch]
  rfl

/-! ## The program as a block -/

/-- The block has the cells of the program. -/
theorem Node.InBounds.block {ns : List Node} {es : List Event} (h : (program ns).InBounds es) :
    (Node.block ns).InBounds es := by
  intro x i v hmem
  have hcell := h x i v hmem
  rw [HasCell, tables_program] at hcell
  exact hcell

/-! ## The whole -/

/-- **Compilation preserves meaning.**  Let a program link, all its names being identifiers, let its
    records be loaded into a machine that is otherwise arbitrary, and let an execution of the program end,
    in which every store to a table is below the size of the table, and to the display below its end.
    Then the machine comes to the branch at `halt`, which leads to itself; it has emitted the pauses of
    the execution; and the cells of the variables, of the tables and of the display hold what they hold
    at the end of the execution. -/
theorem runs_as_executed {n : Node} {asm : Assembly} (hlink : link n = .ok asm) (hn : n.WellNamed)
    {m : Machine} (hm : m.Loaded asm.records) {es : List Event} {s : Store}
    (hrun : Executes n (n.initial fun i => m.memory (screenBase + i)) es s) (hes : n.InBounds es) :
    ∃ m', Reaches asm.records m m' ∧
      asm.layout.map.address? haltName = some m'.pc ∧
      fetch asm.records m'.pc = some (.instruction .b m'.pc) ∧
      Machine.step asm.records m' = some m' ∧
      m'.emitted = Event.waits es ∧
      (∀ x ∈ n.assigned, ∃ a, asm.layout.map.address? (Cell.var x).name = some a ∧
        m'.memory a = s.vars x) ∧
      (∀ x size default, x ≠ screenName → OrderedMap.find? n.tables x = some (size, default) →
        ∃ a, asm.layout.map.address? (tableName x) = some a ∧
          ∀ i, i < size → m'.memory (a + i) = s.tables x i) ∧
      ∀ i : UInt16, i.toNat < screenCells → m'.memory (screenBase + i) = s.tables screenName i := by
  obtain ⟨ns, last, ks, rfl, hcode, h⟩ := linked_of_link hlink hn
  rw [Node.initial, Node.tables_program] at hrun
  cases hrun with
  | assign hassigns _ => cases hassigns.assigned?_eq
  | program hrun =>
    -- the first contents are those of the constants, and the store is the one at the start
    have hfits : Fits ks Names.fresh.temps last.temps ks := fun d =>
      ⟨fun hd => ⟨hd, hcode.within.2 d hd⟩, fun hd => hd.1⟩
    have hholds : Holds ks (Node.program ns).emission.firstTemps := fun d hd =>
      Emission.firstTemps_of_mem hcode.numbered.nodup (hcode.constants.subset hd)
    have hstart : Stands (Node.program ns).emission.program _ _ 0 [] m :=
      ⟨hm.pc, hm.emitted, represents_of_loaded hcode h hm⟩
    have hat : At (Node.program ns).emission.program 0 (Node.program ns).emission.body :=
      ⟨[], _, rfl, rfl⟩
    obtain ⟨m', t', hreach, -, hm'⟩ :=
      hrun.does h hcode hfits (hcode.addressed h hes.block) hat hholds hstart
    rw [Nat.zero_add] at hm'
    obtain ⟨haddress, hfetch, hstep⟩ := h.halted hm'
    refine ⟨m', hreach, haddress, hfetch, hstep, hm'.emitted, ?_, ?_, ?_⟩
    · intro x hx
      rw [Node.assigned_program] at hx
      obtain ⟨j, ha, hj⟩ := hcode.lies_of_assigned h hx
      exact ⟨_, ha, hm'.memory _ _ hj⟩
    · intro x size default hx hfind
      rw [Node.tables_program] at hfind
      obtain ⟨a, ha, hlies⟩ := hcode.lies_of_table h hx hfind
      refine ⟨a, ha, fun i hi => ?_⟩
      obtain ⟨j, hj, hadd⟩ := hlies i hi
      rw [← hadd]
      exact hm'.memory _ _ hj
    · intro i hi
      have hdisplay := hm'.memory _ _ (.display hi)
      rw [UInt16.ofNat_add, UInt16.ofNat_toNat, UInt16.ofNat_toNat] at hdisplay
      exact hdisplay

/-- A loop that fills a table, a store to the display, and a pause. -/
def filledTable : Node :=
  .program [.tableInit "t".toList ['2'] ['7'],
    .assign "x".toList (.intLit ['0']),
    .whileLoop (.binary .lt (.ident "x".toList) (.intLit ['2']))
      (.block [.assignAt "t".toList (.ident "x".toList) (.intLit ['5']),
        .assign "x".toList (.binary .add (.ident "x".toList) (.intLit ['1']))]),
    .assignAt screenName (.intLit ['3']) (.ident "x".toList),
    .wait ['9']]

theorem executes_filledTable (s : Store) : ∃ s', Executes filledTable s [.store "t".toList 0 5,
    .store "t".toList 1 5, .store screenName 3 2, .wait 9] s' ∧ s'.tables screenName 3 = 2 := by
  refine ⟨_, .program (.cons .tableInit (.cons (.assign (v := 0) (.inr rfl) rfl) (.cons
    (.whileTrue rfl
      (.cons (.tableAssign (i := 0) (v := 5) rfl rfl) (.cons (.assign (v := 1) (.inr rfl) rfl) .nil))
      (.whileTrue rfl
        (.cons (.tableAssign (i := 1) (v := 5) rfl rfl) (.cons (.assign (v := 2) (.inr rfl) rfl) .nil))
        (.whileFalse (v := 0) rfl (by decide))))
    (.cons (.tableAssign (i := 3) (v := 2) rfl rfl) (.cons (.wait rfl) .nil))))), rfl⟩

theorem runs_filledTable :
    ∃ asm m', link filledTable = .ok asm ∧ Reaches asm.records (Machine.boot asm.records) m' ∧
      m'.emitted = [9] ∧ m'.memory (screenBase + 3) = 2 := by
  have hok : (link filledTable).toOption.isSome = true := by decide +kernel
  cases hlink : link filledTable with
  | error fault => rw [hlink] at hok; cases hok
  | ok asm =>
    obtain ⟨t, -, ha⟩ := assemble_of_link hlink
    obtain ⟨s', hrun, hscreen⟩ := executes_filledTable
      (filledTable.initial fun i => (Machine.boot asm.records).memory (screenBase + i))
    have hbounds : filledTable.InBounds [.store "t".toList 0 5, .store "t".toList 1 5,
        .store screenName 3 2, .wait 9] := by
      intro x i v hmem
      simp only [List.mem_cons, List.not_mem_nil, or_false, Event.store.injEq, reduceCtorEq] at hmem
      rcases hmem with ⟨rfl, rfl, rfl⟩ | ⟨rfl, rfl, rfl⟩ | ⟨rfl, rfl, rfl⟩
      · exact ⟨2, 7, by decide, by decide⟩
      · exact ⟨2, 7, by decide, by decide⟩
      · show (3 : UInt16).toNat < screenCells
        decide
    obtain ⟨m', hreach, -, -, -, hwaits, -, -, hdisplay⟩ :=
      runs_as_executed hlink (by decide) (loaded_boot ha) hrun hbounds
    exact ⟨asm, m', rfl, hreach, hwaits, (hdisplay 3 (by decide)).trans hscreen⟩

end Minicore
