/-
  PROGRAM TEXT — the statements that a generated text stands for.

  Problem: what has been gathered is kept as text, in four streams; what the assembler makes of a text
  is a list of statements.  Everything about a compiled program is said about that list, so the text
  has to be turned into it once.

  1. **Program** — `Emission.program e`: the body, the halt loop, and one declaration for each constant,
     temporary, table and variable, in that order.

  2. **Streams** — adding an emission is filling ordered maps, so the lines of the text are the written
     statements, with one empty line behind the halt loop (`lines_extend`).

  3. **Reading** — a readable statement is one line and reads as itself (`read_bodyLine`).

  4. **Compiling** — what compiles has a derivation (`compile_derived`).
-/
import Minicore.Build
import Minicore.Proofs.Assembly.Statements
import Minicore.Proofs.Assembly.Written
import Minicore.Proofs.Codegen.Derivation
import Minicore.Proofs.OrderedMap

namespace Minicore

/-! ## The statements of a program -/

/-- The table that a declaration is of, with the words of its cells. -/
def Declaration.table? : Declaration → Option (Text × List UInt16)
  | .table x size default => some (tableName x, List.replicate size.toNat default)
  | .variable _ => none

/-- The name of the cell that a declaration is of. -/
def Declaration.cell? : Declaration → Option Text
  | .variable x => some (Cell.var x).name
  | .table _ _ _ => none

namespace Emission

/-- The tables, each with the words of its last declaration. -/
def tables (e : Emission) : OrderedMap (List UInt16) :=
  OrderedMap.ofList (e.declarations.filterMap Declaration.table?)

/-- The names of the variables, each once. -/
def varNames (e : Emission) : List Text := (e.declarations.filterMap Declaration.cell?).eraseDups

/-- The declarations behind the code. -/
def cells (e : Emission) : List Statement :=
  [.data Cell.one.name [1], .data Cell.zero.name [0]] ++
    e.temps.map (fun t => .data (Cell.temp t.1).name [t.2]) ++
    e.tables.entries.map (fun d => .data d.1 d.2) ++ e.varNames.map (fun x => .data x [0])

/-- Every statement of the program with this code. -/
def program (e : Emission) : List Statement :=
  e.body ++ ([.label haltName, .code .b (some (.symbol haltName))] ++ e.cells)

end Emission

/-- Behind the halt loop there are declarations only. -/
theorem Emission.eq_data_of_mem_cells {e : Emission} {s : Statement} (hs : s ∈ e.cells) :
    ∃ x values, s = .data x values := by
  simp only [cells, List.mem_append, List.mem_cons, List.not_mem_nil, or_false, List.mem_map] at hs
  rcases hs with (((rfl | rfl) | ⟨_, _, rfl⟩) | ⟨_, _, rfl⟩) | ⟨_, _, rfl⟩ <;> exact ⟨_, _, rfl⟩

/-! ## Maps filled in order, as entries -/

namespace OrderedMap

variable {β : Type}

/-- Names that all get one value: the names without repetitions, with that value. -/
theorem entries_foldl_insertNew (c : β) (names : List Text) :
    (names.foldl (fun m x => m.insertNew x c) empty).entries = names.eraseDups.map fun x => (x, c) := by
  -- every value is `c`, so the map is its keys
  have hvalue : ∀ (name : Text) (es : List (Text × β)), (∀ d ∈ es, d.2 = c) →
      ∀ d ∈ putNew name c es, d.2 = c := by
    intro name es
    induction es with
    | nil =>
      intro _ d hd
      obtain rfl := List.mem_singleton.1 hd
      rfl
    | cons e es ih =>
      intro hes d hd
      simp only [putNew] at hd
      split at hd
      · exact hes d hd
      · rcases List.mem_cons.1 hd with rfl | hd
        · exact hes _ List.mem_cons_self
        · exact ih (fun d hd => hes d (List.mem_cons_of_mem _ hd)) d hd
  have hall : ∀ d ∈ (names.foldl (fun m x => m.insertNew x c) empty).entries, d.2 = c := by
    induction names using List.reverseRecOn with
    | nil => intro d hd; cases hd
    | append_singleton names x ih =>
      rw [List.foldl_append]
      exact hvalue x _ ih
  have hkeys : (names.foldl (fun m x => m.insertNew x c) empty).keys = (names.map id).eraseDups :=
    keys_foldl (fun m x => keys_insertNew m x c) names
  have hpair : ∀ es : List (Text × β), (∀ d ∈ es, d.2 = c) →
      es = (es.map Prod.fst).map fun x => (x, c) := by
    intro es hes
    rw [List.map_map]
    exact (List.map_id es).symm.trans (List.map_congr_left fun d hd => Prod.ext rfl (hes d hd))
  rw [List.map_id] at hkeys
  rw [hpair _ hall, ← hkeys]
  rfl

end OrderedMap

/-! ## Streams -/

namespace Streams

/-- A row of declarations fills the two maps and leaves the rest. -/
theorem foldl_declare (ds : List Declaration) (s : Streams) :
    ds.foldl declare s =
      { s with
        tables := (ds.filterMap Declaration.table?).foldl
          (fun m d => m.insert d.1 (Statement.valuesText d.2)) s.tables
        vars := (ds.filterMap Declaration.cell?).foldl
          (fun m x => m.insertNew x (cellContent 0)) s.vars } := by
  induction ds generalizing s with
  | nil => rfl
  | cons d ds ih =>
    rw [List.foldl_cons, ih]
    rcases d with x | ⟨x, size, default⟩
    · rfl
    · have hcontent : tableContent size default =
          Statement.valuesText (List.replicate size.toNat default) := by
        rw [tableContent, Statement.valuesText, List.map_replicate]
        rfl
      simp only [declare, hcontent]
      rfl

/-- A single word is written as the content of a cell. -/
theorem cellContent_eq (v : UInt16) : cellContent v = Statement.valuesText [v] := by
  rw [Statement.valuesText, List.map_singleton, Text.join_singleton]
  rfl

theorem text_data (x : Text) (v : UInt16) :
    Statement.declarationText x (cellContent v) = (Statement.data x [v]).text := by
  rw [cellContent_eq]
  rfl

theorem tables_extend (e : Emission) :
    (empty.extend e).tables.entries =
      e.tables.entries.map fun d => (d.1, Statement.valuesText d.2) := by
  rw [extend, foldl_declare, Emission.tables, ← OrderedMap.entries_ofList_map, OrderedMap.ofList,
    List.foldl_map]
  rfl

theorem vars_extend (e : Emission) :
    (empty.extend e).vars.entries = e.varNames.map fun x => (x, cellContent 0) := by
  rw [extend, foldl_declare]
  exact OrderedMap.entries_foldl_insertNew (cellContent 0) _

theorem temps_extend (e : Emission) :
    (empty.extend e).temps = e.temps.map fun t => ((Cell.temp t.1).name, cellContent t.2) := by
  rw [extend, foldl_declare]
  rfl

theorem body_extend (e : Emission) : (empty.extend e).body = e.body.map bodyLine := by
  rw [extend, foldl_declare]
  rfl

/-- **The lines of a program**: its body and the halt loop, an empty line, and its declarations. -/
theorem lines_extend (e : Emission) :
    (empty.extend e).lines =
      (e.body ++ [Statement.label haltName, Statement.code .b (some (.symbol haltName))]).map bodyLine ++
        [] :: e.cells.map Statement.text := by
  have hone : Statement.declarationText Cell.one.name (cellContent 1) =
      (Statement.data Cell.one.name [1]).text := text_data _ _
  have hzero : Statement.declarationText Cell.zero.name (cellContent 0) =
      (Statement.data Cell.zero.name [0]).text := text_data _ _
  simp only [lines, body_extend, temps_extend, tables_extend, vars_extend, epilogue, Emission.cells,
    hone, hzero, List.map_append, List.map_map, List.map_cons, List.map_nil, List.append_assoc,
    List.cons_append, List.nil_append, Function.comp_def, text_data]
  rfl

end Streams

/-! ## Reading the lines -/

namespace Statement

/-- Readable statements are written with blanks between solid words. -/
theorem mem_text {s : Statement} (h : s.Readable) : ∀ c ∈ s.text, c = ' ' ∨ isBlank c = false := by
  have hsymbol : ∀ x : Text, x.isSymbol = true → ∀ c ∈ x, isBlank c = false := fun x hx =>
    Text.not_blank_of_isSymbol hx
  intro c hc
  -- blanks are written by the statement itself, never by what it is made of
  cases s with
  | label name => exact .inr (hsymbol name h c hc)
  | data name values =>
    simp only [text, declarationText, List.mem_append, List.mem_cons] at hc
    rcases hc with (hc | hc | hc) | hc | hc
    · exact .inr (hsymbol name h c hc)
    · exact .inl hc
    · have hsolid : dataKeyword.solid = true := by decide
      exact .inr (Text.not_blank_of_solid hsolid c hc)
    · exact .inl hc
    · exact .inr (not_blank_of_mem_valuesText c hc)
  | code op param =>
    obtain ⟨hp, p, operands, hfind, hfill, -⟩ := h
    obtain ⟨-, -, hsolid, -⟩ := unique_shape (List.mem_of_find?_eq_some hfind)
    obtain ⟨hwritten, -, -⟩ := readOperands_slotText hp hfill
    simp only [text, codeText, hfind, List.mem_append, List.mem_cons] at hc
    rcases hc with hc | hc | hc
    · exact .inr (Text.not_blank_of_solid hsolid c hc)
    · exact .inl hc
    · rcases Text.mem_join hc with hc | ⟨q, hq, hc⟩
      · have hsep : c = ',' ∨ c = ' ' := by simpa using hc
        rcases hsep with rfl | rfl
        · exact .inr (by decide)
        · exact .inl rfl
      · exact .inr (Text.not_blank_of_solid (hwritten q hq).1 c hc)

/-- A readable statement behind spaces is one line. -/
theorem physical_text {s : Statement} (h : s.Readable) {b : Text} (hb : ∀ c ∈ b, c = ' ') :
    Text.physical (b ++ s.text) = [b ++ s.text] := by
  have hall : ∀ c ∈ b ++ s.text, c = ' ' ∨ isBlank c = false := by
    intro c hc
    rcases List.mem_append.1 hc with hc | hc
    · exact .inl (hb c hc)
    · exact mem_text h c hc
  refine Text.physical_of_free (fun c hc heq => ?_) (fun hlast => ?_)
  · rcases hall c hc with rfl | hblank
    · exact absurd heq (by decide)
    · rw [heq] at hblank
      exact absurd hblank (by decide)
  · rcases hall _ (List.mem_of_getLast? hlast) with heq | hblank
    · exact absurd heq (by decide)
    · exact absurd hblank (by decide)

/-- A body line is the text of its statement behind spaces. -/
theorem bodyLine_eq (s : Statement) :
    ∃ b : Text, (∀ c ∈ b, c = ' ') ∧ b.blank = true ∧ Streams.bodyLine s = b ++ s.text := by
  have hspaces : ∀ c ∈ "    ".toList, c = ' ' := fun c hc => List.eq_of_mem_replicate (n := 4) hc
  cases s with
  | label name => exact ⟨[], fun c hc => absurd hc List.not_mem_nil, rfl, rfl⟩
  | code op param => exact ⟨"    ".toList, hspaces, by decide, rfl⟩
  | data name values => exact ⟨"    ".toList, hspaces, by decide, rfl⟩

/-- **A body line**: one line, which reads as its statement. -/
theorem read_bodyLine {s : Statement} (h : s.Readable) :
    Text.physical (Streams.bodyLine s) = [Streams.bodyLine s] ∧
      read (Streams.bodyLine s) = .ok (some s) := by
  obtain ⟨b, hspaces, hblank, heq⟩ := bodyLine_eq s
  rw [heq]
  exact ⟨physical_text h hspaces, read_text h hblank⟩

end Statement

/-! ## Compiled programs -/

/-- Everything that a program contributes, from a fresh start. -/
def Node.emission (n : Node) : Emission := (Minicore.program n Names.fresh).emission

/-- A program that has code is derived, and the streams hold what it contributes. -/
theorem ofProgram_derived {n : Node} {s : Streams} (h : Streams.ofProgram n = .ok s) :
    ∃ ss last ks, n = .program ss ∧ StatementCode (.block ss) Names.fresh last n.emission ks ∧
      s = Streams.empty.extend n.emission := by
  rcases hrun : program n Names.fresh with ⟨result, last, e⟩
  have he : n.emission = e := by rw [Node.emission, hrun]
  have hstreams : Streams.ofProgram n = result.map fun _ => Streams.empty.extend e := by
    show (program n Names.fresh).result.map
      (fun _ => Streams.empty.extend (program n Names.fresh).emission) = _
    rw [hrun]
  rw [hstreams] at h
  cases result with
  | error fault => cases h
  | ok u =>
    obtain rfl : Streams.empty.extend e = s := Except.ok.inj h
    cases n with
    | program ss =>
      obtain ⟨ks, hderived⟩ := statements_derived hrun
      rw [he]
      exact ⟨ss, last, ks, rfl, hderived, rfl⟩
    | _ => cases hrun

/-- **What compiles has a derivation**, and its text is that of what it contributes. -/
theorem compile_derived {n : Node} {t : Text} (h : compile n = .ok t) :
    ∃ ss last ks, n = .program ss ∧ StatementCode (.block ss) Names.fresh last n.emission ks ∧
      t = Text.unlines (Streams.empty.extend n.emission).lines := by
  rw [compile] at h
  cases hstreams : Streams.ofProgram n with
  | error fault =>
    rw [hstreams] at h
    cases h
  | ok s =>
    rw [hstreams] at h
    obtain rfl : s.text = t := Except.ok.inj h
    obtain ⟨ss, last, ks, hn, hderived, rfl⟩ := ofProgram_derived hstreams
    exact ⟨ss, last, ks, hn, hderived, rfl⟩

end Minicore
