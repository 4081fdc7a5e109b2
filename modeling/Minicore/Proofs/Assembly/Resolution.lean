/-
  RESOLUTION — which address a name stands for.

  Problem: a reference may stand before or behind the definition it means, a name may be defined more
  than once, and a label has no word of its own.  The map of the whole text decides, so everything
  comes down to what that map holds and to which line a record belongs.

  1. **The map** — by `map_of_ofText` it is filled with the definitions of the lines, in line order, so
     the facts about maps filled in order apply: every name once, first come first placed
     (`keys_map`), and the LAST definition counts (`Placed.find?_enter`).

  2. **Operands** — the record at the address of an instruction line has the operand that the map gives
     (`record_of_code`), and every instruction record is that of such a line (`code_of_record`).

  3. **Labels** — the records behind a label start at its address (`address_of_label`).
-/
import Minicore.Proofs.Assembly.Records
import Minicore.Proofs.OrderedMap

namespace Minicore

namespace Layout

open SourceLine

variable {t : Text} {l : Layout} {records : List Record}

/-! ## What the map holds -/

/-- The names of the definitions are the names of the lines. -/
theorem Placed.names {i pc : Nat} {ls : List SourceLine} (h : Placed i pc ls) :
    (ls.filterMap definition?).map Prod.fst = ls.filterMap name? := by
  induction h with
  | nil => rfl
  | skip _ _ ih =>
    rw [List.filterMap_cons_none rfl, List.filterMap_cons_none rfl]
    exact ih
  | @statement i pc raw s ls _ _ _ ih =>
    cases hs : s.name? <;> simpa [definition?, name?, hs] using ih

/-- Every name once, in the order of the first definitions. -/
theorem keys_map (h : ofText t = .ok l) : l.map.keys = (l.lines.filterMap name?).eraseDups := by
  rw [map_of_ofText h, OrderedMap.keys_ofList, (placed_of_ofText h).names]

/-- A name stands in the map exactly when a line defines it. -/
theorem isSome_find?_map_iff (h : ofText t = .ok l) (x : Text) :
    (OrderedMap.find? l.map x).isSome ↔ ∃ line ∈ l.lines, line.name? = some x := by
  rw [Option.isSome_iff_ne_none, ne_eq, OrderedMap.find?_eq_none_iff, not_not, keys_map h,
    List.mem_eraseDups, List.mem_filterMap]

/-- **The last definition counts**: what stands under a name after some lines is told by the last of
    them that defines it. -/
theorem Placed.find?_enter {ls : List SourceLine} (hp : Placed 0 0 ls) {x : Text} {e : Entry}
    (he : OrderedMap.find? (enter OrderedMap.empty ls) x = some e) :
    ∃ before line after s, ls = before ++ line :: after ∧ line.statement = some s ∧
      s.name? = some x ∧ (∀ later ∈ after, later.name? ≠ some x) ∧
      e = ⟨before.length, definition s, UInt16.ofNat (words before)⟩ := by
  obtain ⟨earlier, later, hsplit, hlater⟩ := OrderedMap.find?_ofList_eq_some_iff.1 he
  -- the decomposition of the definitions comes from one of the lines
  obtain ⟨before, rest, hlines, hbefore, hrest⟩ := List.filterMap_eq_append_iff.1 hsplit
  obtain ⟨skipped, line, after, hrest', hskip, hline, hafter⟩ := List.filterMap_eq_cons_iff.1 hrest
  have hl : ls = (before ++ skipped) ++ line :: after := by
    rw [hlines, hrest', List.append_assoc]
  rw [hl] at hp
  obtain ⟨hidx, -, haddr, -⟩ := hp.at_line
  cases hs : line.statement with
  | none => simp [definition?, hs] at hline
  | some s =>
    rw [hs, Nat.zero_add] at haddr
    rw [definition?_of_statement hs haddr, Option.map_eq_some_iff] at hline
    obtain ⟨name, hname, heq⟩ := hline
    rw [Prod.mk.injEq] at heq
    obtain ⟨rfl, rfl⟩ := heq
    refine ⟨before ++ skipped, line, after, s, hl, hs, hname, fun l' hl' hn => hlater ?_, ?_⟩
    · obtain ⟨_, _, hrest⟩ := hp.drop.tail
      rw [← hafter, hrest.names]
      exact List.mem_filterMap.2 ⟨l', hl', hn⟩
    · rw [hidx, Nat.zero_add]

theorem find?_map (h : ofText t = .ok l) {x : Text} {e : Entry}
    (he : OrderedMap.find? l.map x = some e) :
    ∃ before line after s, l.lines = before ++ line :: after ∧ line.statement = some s ∧
      s.name? = some x ∧ (∀ later ∈ after, later.name? ≠ some x) ∧
      e = ⟨before.length, definition s, UInt16.ofNat (words before)⟩ := by
  rw [map_of_ofText h] at he
  exact (placed_of_ofText h).find?_enter he

/-! ## Operands -/

/-- What an instruction's parameter comes to: itself, the address of its symbol, or zero without one. -/
def Resolves (map : AddressMap) : Option Param → UInt16 → Prop
  | none, v => v = 0
  | some (.literal n), v => v = n
  | some (.symbol name), v => map.address? name = some v

/-- The words of an instruction that was encoded. -/
theorem resolves_of_wordsIn {map : AddressMap} {op : Opcode} {param : Option Param} {word : Word}
    (h : (Statement.code op param).wordsIn map = [word]) :
    ∃ v, word = .instruction op v ∧ Resolves map param v := by
  cases param with
  | none => exact ⟨0, (List.singleton_inj.1 h).symm, rfl⟩
  | some p =>
    cases p with
    | literal n => exact ⟨n, (List.singleton_inj.1 h).symm, rfl⟩
    | symbol name =>
      cases ha : map.address? name with
      | none => simp [Statement.wordsIn, AddressMap.resolve, ha] at h
      | some v =>
        simp only [Statement.wordsIn, AddressMap.resolve, ha, List.cons.injEq, and_true] at h
        exact ⟨v, h.symm, ha⟩

/-- The words of a statement are its instruction, or the values that it declares. -/
theorem mem_wordsIn {map : AddressMap} {s : Statement} {word : Word} (h : word ∈ s.wordsIn map) :
    (∃ op param v, s = .code op param ∧ word = .instruction op v ∧ Resolves map param v) ∨
      ∃ x values v, s = .data x values ∧ v ∈ values ∧ word = .data v := by
  cases s with
  | code op param =>
    have hone : (Statement.code op param).wordsIn map = [word] := by
      cases param with
      | none => exact (List.mem_singleton.1 h).symm ▸ rfl
      | some p =>
        simp only [Statement.wordsIn] at h ⊢
        cases hp : map.resolve p with
        | error e => rw [hp] at h; cases h
        | ok v => rw [hp] at h; rw [List.mem_singleton.1 h]
    obtain ⟨v, hv, hres⟩ := resolves_of_wordsIn hone
    exact .inl ⟨op, param, v, rfl, hv, hres⟩
  | label name => cases h
  | data x values =>
    obtain ⟨v, hv, rfl⟩ := List.mem_map.1 h
    exact .inr ⟨x, values, v, rfl, hv, rfl⟩

/-- The record at the address of an instruction line is that instruction, with its operand resolved in
    the map of the whole text. -/
theorem record_of_code (h : ofText t = .ok l) (hok : l.encode = .ok records) {line : SourceLine}
    (hl : line ∈ l.lines) {op : Opcode} {param : Option Param}
    (hs : line.statement = some (.code op param)) :
    ∃ a v, line.address = some a ∧ Resolves l.map param v ∧
      records[a.toNat]? = some ⟨a, .instruction op v, line.text.trim⟩ := by
  have hp := placed_of_ofText h
  have hok' : encodeLines l.map (UInt16.ofNat 0) l.lines = .ok records := hok
  obtain ⟨before, after, hlines⟩ := List.append_of_mem hl
  obtain ⟨ha, hnat, -⟩ := address_of_ofText h hlines hs
  rw [hlines] at hp hok'
  obtain ⟨hadr, hcom, hword⟩ := hp.produced_spec hok'
  have hshare := hp.share hok'
  rw [width_of_statement hs] at hadr hcom hshare
  -- an instruction has exactly one record
  obtain ⟨r, hr⟩ : ∃ r, line.produced l.map = [r] := by
    have hlen := congrArg List.length hadr
    rw [List.length_map, List.length_range'] at hlen
    exact List.length_eq_one_iff.1 hlen
  rw [hr, hs] at hword
  rw [hr] at hadr hcom hshare
  obtain ⟨v, hv, hres⟩ := resolves_of_wordsIn (hword.trans (List.append_nil _)).symm
  have hadr' : r.address.toNat = 0 + words before := List.singleton_inj.1 hadr
  have hcom' : r.comment = line.text.trim := List.singleton_inj.1 hcom
  refine ⟨_, v, ha, hres, ?_⟩
  have hget : records[words before]? = some r := by
    have := congrArg List.head? hshare
    rw [show (Statement.code op param).width = 1 from rfl, List.head?_take, List.head?_drop] at this
    simpa using this
  have hreq : r.address = UInt16.ofNat (words before) := by
    apply UInt16.toNat_inj.1
    rw [hadr', hnat, Nat.zero_add]
  obtain ⟨ra, rw', rc⟩ := r
  simp only at hreq hv hcom'
  rw [hnat, hget, hreq, hv, hcom']

/-- Every instruction record is that of an instruction line, at the line's address. -/
theorem code_of_record (h : ofText t = .ok l) (hok : l.encode = .ok records) {r : Record}
    (hr : r ∈ records) {op : Opcode} {v : UInt16} (hw : r.word = .instruction op v) :
    ∃ line ∈ l.lines, ∃ param, line.statement = some (.code op param) ∧
      line.address = some r.address := by
  have hp := placed_of_ofText h
  have hok' : encodeLines l.map (UInt16.ofNat 0) l.lines = .ok records := hok
  rw [hp.eq_flatMap hok', List.mem_flatMap] at hr
  -- the record is one of some line; its word tells what the statement there is
  obtain ⟨line, hl, hr⟩ := hr
  obtain ⟨before, after, hlines⟩ := List.append_of_mem hl
  rw [hlines] at hp hok'
  obtain ⟨hadr, -, hword⟩ := hp.produced_spec hok'
  have hmem : r.word ∈ (line.produced l.map).map Record.word := List.mem_map_of_mem hr
  rw [hword, hw, List.mem_flatMap] at hmem
  obtain ⟨s, hs, hmem⟩ := hmem
  rw [Option.mem_toList] at hs
  obtain ⟨ha, hnat, -⟩ := address_of_ofText h hlines hs
  cases s with
  | label name => cases hmem
  | data name values =>
    obtain ⟨w, -, hw'⟩ := List.mem_map.1 hmem
    cases hw'
  | code op' param =>
    have hop : op' = op := by
      cases param with
      | none => simp [Statement.wordsIn] at hmem; exact hmem.1.symm
      | some p =>
        cases hres : l.map.resolve p with
        | error e => simp [Statement.wordsIn, hres] at hmem
        | ok w => simp [Statement.wordsIn, hres] at hmem; exact hmem.1.symm
    subst hop
    refine ⟨line, hl, param, hs, ?_⟩
    -- one word wide, the line has its one record at its own address
    have hrmem : r.address.toNat ∈ (line.produced l.map).map (fun r => r.address.toNat) :=
      List.mem_map_of_mem hr
    rw [hadr, width_of_statement hs, List.mem_range'_1] at hrmem
    rw [ha, Option.some.injEq]
    apply UInt16.toNat_inj.1
    rw [hnat]
    have hone : (Statement.code op' param).width = 1 := rfl
    omega

/-! ## Labels -/

/-- The records behind a label start at its address; with none behind, it stands at the end. -/
theorem address_of_label (h : ofText t = .ok l) (hok : l.encode = .ok records)
    {before after : List SourceLine} {line : SourceLine} {x : Text}
    (hl : l.lines = before ++ line :: after) (hs : line.statement = some (.label x)) :
    ∃ a, line.address = some a ∧ a.toNat =
      ((after.flatMap fun later => later.produced l.map).head?.map fun r => r.address.toNat).getD
        l.size := by
  have hp := placed_of_ofText h
  have hok' : encodeLines l.map (UInt16.ofNat 0) l.lines = .ok records := hok
  obtain ⟨ha, hnat, -⟩ := address_of_ofText h hl hs
  have hsize := size_of_ofText h
  have hzero : line.width = 0 := width_of_statement hs
  -- a label is no word wide: the records behind it start at its address
  have hsplit : l.lines = (before ++ [line]) ++ after := by
    rw [hl, List.append_assoc, List.singleton_append]
  rw [hsplit] at hp hok'
  have hadr := congrArg List.head? (hp.addresses_of_append hok')
  rw [List.head?_map, words_append, words_cons, words_nil, hzero] at hadr
  rw [hl, words_append, words_cons, hzero] at hsize
  refine ⟨_, ha, ?_⟩
  rw [hnat, hadr]
  -- without words behind it nothing is produced, and its address is the size
  cases hw : words after with
  | zero => rw [List.range'_zero, hsize, hw]; rfl
  | succ n => simp [List.range'_succ]

/-! ## The whole -/

/-- **Symbol resolution.**  For every text that assembles, the map lists the names that some line
    defines, each once and in the order of the first definitions, and tells of each the index, the kind
    and the address of its LAST definition, the address being the number of words before that line; the
    record at the address of an instruction line is that instruction with its literal, zero or the mapped
    address of its symbol, and there are no other instruction records; and a label stands at the first
    record of a later line, or at the size when no later line has one. -/
theorem resolution_of_assemble {t : Text} {asm : Assembly} (h : assemble t = .ok asm) :
    let lines := asm.layout.lines
    let map := asm.layout.map
    lines.map SourceLine.text = t.lines ∧
    (∀ line ∈ lines, Statement.read line.text = .ok line.statement) ∧
    (∀ x, (OrderedMap.find? map x).isSome ↔ ∃ line ∈ lines, line.name? = some x) ∧
    (∀ x e, OrderedMap.find? map x = some e → ∃ before line after s,
      lines = before ++ line :: after ∧ line.statement = some s ∧ s.name? = some x ∧
        (∀ later ∈ after, later.name? ≠ some x) ∧ e.line = before.length ∧
        e.kind = (match s with
          | .data _ values => .data values.length
          | _ => .label) ∧
        e.address.toNat = words before) ∧
    map.keys = (lines.filterMap name?).eraseDups ∧ map.keys.Nodup ∧
    (∀ line ∈ lines, ∀ op param, line.statement = some (.code op param) →
      ∃ a v, line.address = some a ∧ Resolves map param v ∧
        asm.records[a.toNat]? = some ⟨a, .instruction op v, line.text.trim⟩) ∧
    (∀ r ∈ asm.records, ∀ op v, r.word = .instruction op v →
      ∃ line ∈ lines, ∃ param, line.statement = some (.code op param) ∧
        line.address = some r.address) ∧
    ∀ before line after x, lines = before ++ line :: after → line.statement = some (.label x) →
      ∃ a, line.address = some a ∧ a.toNat =
        ((after.flatMap fun later => later.produced map).head?.map fun r => r.address.toNat).getD
          asm.layout.size := by
  obtain ⟨hlay, hok⟩ := layout_of_assemble h
  obtain ⟨htexts, hreads⟩ := lines_of_ofText hlay
  refine ⟨htexts, hreads, isSome_find?_map_iff hlay, ?_, keys_map hlay, ?_, ?_, ?_, ?_⟩
  · intro x e he
    obtain ⟨before, line, after, s, hl, hs, hx, hlater, rfl⟩ := find?_map hlay he
    obtain ⟨-, hnat, -⟩ := address_of_ofText hlay hl hs
    exact ⟨before, line, after, s, hl, hs, hx, hlater, rfl, by cases s <;> rfl, hnat⟩
  · rw [keys_map hlay]
    exact OrderedMap.nodup_eraseDups _
  · exact fun line hl op param hs => record_of_code hlay hok hl hs
  · exact fun r hr op v hw => code_of_record hlay hok hr hw
  · exact fun before line after x hl hs => address_of_label hlay hok hl hs

/-- References before and behind a definition, a name defined twice, an empty declaration, a line that is
    no statement, and a label behind the last word. -/
def crossReferences : Text :=
  "B end\ndup\nt DCB 1, 2\nno line\ndup\ne DCB\nMOV R1, #dup\nend\n".toList

theorem resolution_of_crossReferences :
    ∃ asm, assemble crossReferences = .ok asm ∧ asm.layout.map.keys.Nodup ∧
      asm.layout.map.keys = ["dup".toList, "t".toList, "e".toList, "end".toList] := by
  have hkeys : (assemble crossReferences).map (fun asm => asm.layout.map.keys) =
      .ok ["dup".toList, "t".toList, "e".toList, "end".toList] := rfl
  cases h : assemble crossReferences with
  | error e => rw [h] at hkeys; cases hkeys
  | ok asm =>
    rw [h] at hkeys
    exact ⟨asm, rfl, (resolution_of_assemble h).2.2.2.2.2.1, Except.ok.inj hkeys⟩

end Layout

end Minicore
