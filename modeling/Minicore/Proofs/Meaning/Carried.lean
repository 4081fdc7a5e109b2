/-
  CARRIED PROGRAMS — where the processor finds the statements of a program.

  Problem: the processor sees records at addresses, and operands that are numbers.  To follow a
  program one has to know which record stands for which statement, and that the number in a branch
  or a load is the address of the place that it names.

  1. **Interface** — `Carries asm ss`: the assembly `asm` carries the statements `ss`.  The record at
     the words before an instruction is that instruction with its operand resolved, the records of a
     declaration hold its values, and a name is resolved to the words before the ONE statement that
     defines it.

  2. **Soundness** — a text that assembles and defines no name twice is carried
     (`carries_of_assemble`).  From here on neither lines nor the two passes are opened again.
-/
import Minicore.Meaning.Processor
import Minicore.Proofs.Assembly.Definite

namespace Minicore

open Machine (fetch)
open Statement (words names)

/-- A program in its records. -/
structure Carries (asm : Assembly) (ss : List Statement) : Prop where
  le_depth : words ss ≤ imageDepth
  nodup : (names ss).Nodup
  /-- An instruction stands behind the words before it, with its operand resolved. -/
  code : ∀ {before after : List Statement} {op : Opcode} {param : Option Param},
    ss = before ++ .code op param :: after →
    ∃ v, Layout.Resolves asm.layout.map param v ∧
      fetch asm.records (UInt16.ofNat (words before)) = some (.instruction op v)
  /-- The values of a declaration stand one behind another. -/
  data : ∀ {before after : List Statement} {x : Text} {values : List UInt16},
    ss = before ++ .data x values :: after → ∀ i v, values[i]? = some v →
    ∃ r ∈ asm.records, r.address = UInt16.ofNat (words before + i) ∧ r.word = .data v
  /-- A name stands for the words before its definition. -/
  address : ∀ {before after : List Statement} {s : Statement} {x : Text},
    ss = before ++ s :: after → s.name? = some x →
    asm.layout.map.address? x = some (UInt16.ofNat (words before))
  /-- Only names of the program stand for anything. -/
  defined : ∀ {x : Text} {a : UInt16}, asm.layout.map.address? x = some a →
    ∃ before s after, ss = before ++ s :: after ∧ s.name? = some x

namespace Layout

open SourceLine

variable {t : Text} {l : Layout} {records : List Record}

/-- With one record for each address, a record is found at its own. -/
theorem fetch_of_mem {rs : List Record} (hn : (rs.map fun r => r.address.toNat).Nodup) {r : Record}
    (hr : r ∈ rs) : fetch rs r.address = some r.word := by
  induction rs with
  | nil => cases hr
  | cons q rs ih =>
    rw [List.map_cons, List.nodup_cons] at hn
    unfold fetch at ih ⊢
    rcases List.mem_cons.1 hr with rfl | hr
    · rw [List.find?_cons_of_pos (p := fun q : Record => q.address == r.address)
        (beq_self_eq_true r.address)]
      rfl
    · have hne : ¬ (q.address == r.address) = true := by
        intro heq
        refine hn.1 ?_
        rw [beq_iff_eq.1 heq]
        exact List.mem_map_of_mem hr
      rw [List.find?_cons_of_neg (p := fun q : Record => q.address == r.address) hne]
      exact ih hn.2 hr

/-- No two records of a layout have the same address. -/
theorem nodup_addresses (h : ofText t = .ok l) (hok : l.encode = .ok records) :
    (records.map fun r => r.address.toNat).Nodup := by
  have hok' : encodeLines l.map (UInt16.ofNat 0) l.lines = .ok records := hok
  rw [(placed_of_ofText h).addresses hok']
  exact List.nodup_range'

/-- The records of a declaration hold its values, from its address on. -/
theorem record_of_data (h : ofText t = .ok l) (hok : l.encode = .ok records)
    {before after : List SourceLine} {line : SourceLine} {x : Text} {values : List UInt16}
    (hl : l.lines = before ++ line :: after) (hs : line.statement = some (.data x values))
    {i : Nat} {v : UInt16} (hv : values[i]? = some v) :
    ∃ r ∈ records, r.address.toNat = SourceLine.words before + i ∧ r.word = .data v := by
  have hp := placed_of_ofText h
  have hok' : encodeLines l.map (UInt16.ofNat 0) l.lines = .ok records := hok
  have hall : records = l.lines.flatMap fun line => line.produced l.map := hp.eq_flatMap hok'
  rw [hl] at hp hok'
  obtain ⟨hadr, -, hword⟩ := hp.produced_spec hok'
  rw [hs] at hword
  rw [width_of_statement hs, Nat.zero_add] at hadr
  have hvalues : (line.produced l.map).map Record.word = values.map Word.data :=
    hword.trans (List.append_nil _)
  obtain ⟨hi, -⟩ := List.getElem?_eq_some_iff.1 hv
  -- the words and the addresses of the line's records, each at the index `i`
  have hword := congrArg (·[i]?) hvalues
  have hadr := congrArg (·[i]?) hadr
  have hrange : (List.range' (SourceLine.words before) values.length)[i]? =
      some (SourceLine.words before + i) := by
    rw [List.getElem?_range' hi, Nat.one_mul]
  simp only [List.getElem?_map, hv, Option.map_some] at hword
  have hadr' := hadr.trans hrange
  rw [List.getElem?_map] at hadr'
  obtain ⟨r, hr, hw⟩ := Option.map_eq_some_iff.1 hword
  rw [hr, Option.map_some, Option.some.injEq] at hadr'
  refine ⟨r, ?_, hadr', hw⟩
  rw [hall, hl, List.mem_flatMap]
  exact ⟨line, by simp, List.mem_of_getElem? hr⟩

end Layout

open Layout in
/-- In what was assembled a record is found at its own address. -/
theorem fetch_of_assemble {t : Text} {asm : Assembly} (h : assemble t = .ok asm) {r : Record}
    (hr : r ∈ asm.records) : fetch asm.records r.address = some r.word := by
  obtain ⟨hlay, hok⟩ := layout_of_assemble h
  exact fetch_of_mem (nodup_addresses hlay hok) hr

/-- A machine that is switched on has its records loaded. -/
theorem loaded_boot {t : Text} {asm : Assembly} (h : assemble t = .ok asm) :
    (Machine.boot asm.records).Loaded asm.records := by
  refine ⟨rfl, rfl, fun r hr v hv => ?_⟩
  have hfetch := fetch_of_assemble h hr
  rw [hv] at hfetch
  exact Machine.memory_boot hfetch

open Layout in
/-- **What assembles is carried**, if it defines no name twice. -/
theorem carries_of_assemble {t : Text} {asm : Assembly} (h : assemble t = .ok asm)
    (hn : (names t.statements).Nodup) : Carries asm t.statements := by
  obtain ⟨hlay, hok⟩ := layout_of_assemble h
  have hstatements := statements_of_ofText hlay
  have hwords := words_statementsOf asm.layout.lines
  have hnames := names_statementsOf asm.layout.lines
  rw [hstatements] at hwords hnames
  have hdepth := size_le_of_ofText hlay
  rw [size_of_ofText hlay, ← hwords] at hdepth
  refine ⟨hdepth, hn, ?_, ?_, ?_, ?_⟩
  · intro before after op param hss
    obtain ⟨lines, line, rest, hl, hs, hw⟩ := line_of_statement (hstatements.trans hss)
    have hmem : line ∈ asm.layout.lines := by rw [hl]; simp
    obtain ⟨a, v, ha, hv, hget⟩ := record_of_code hlay hok hmem hs
    obtain ⟨ha', -, -⟩ := address_of_ofText hlay hl hs
    obtain rfl : UInt16.ofNat (SourceLine.words lines) = a := Option.some.inj (ha'.symm.trans ha)
    refine ⟨v, hv, ?_⟩
    rw [← hw]
    exact fetch_of_mem (nodup_addresses hlay hok) (List.mem_of_getElem? hget)
  · intro before after x values hss i v hv
    obtain ⟨lines, line, rest, hl, hs, hw⟩ := line_of_statement (hstatements.trans hss)
    obtain ⟨r, hr, haddress, hword⟩ := record_of_data hlay hok hl hs hv
    refine ⟨r, hr, ?_, hword⟩
    rw [← hw, ← haddress, UInt16.ofNat_toNat]
  · intro before after s x hss hx
    obtain ⟨lines, line, rest, hl, hs, hw⟩ := line_of_statement (hstatements.trans hss)
    rw [address?_map_of_nodup hlay (hnames ▸ hn) hl hs hx, hw]
  · intro x a ha
    have hsome : (OrderedMap.find? asm.layout.map x).isSome := by
      rw [AddressMap.address?, Option.map_eq_some_iff] at ha
      obtain ⟨e, he, -⟩ := ha
      rw [he]
      rfl
    obtain ⟨line, hl, hx⟩ := (isSome_find?_map_iff hlay x).1 hsome
    -- the name is one of the statements' names, so one of the statements has it
    have hmem : x ∈ names t.statements := by
      rw [hnames]
      exact List.mem_filterMap.2 ⟨line, hl, hx⟩
    obtain ⟨s, hs, hsx⟩ := List.mem_filterMap.1 hmem
    obtain ⟨before, after, hss⟩ := List.append_of_mem hs
    exact ⟨before, s, after, hss, hsx⟩

end Minicore
