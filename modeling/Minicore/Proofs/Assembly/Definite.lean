/-
  DEFINITE texts — the layout of a text in which every name has one definition.

  Problem: when a name is defined twice, the layout has to tell which definition counts.  A text without
  such names needs none of that: its map is its names, each at the words before it, and its records are
  the words of its statements, one behind another.

  1. **The map** — the names of the map are those of the statements, in order (`keys_of_definite`), and a
     name has the kind of its statement and the words before it for an address (`has_of_statement`).

  2. **The records** — they stand at the addresses from zero on (`addresses_of_assemble`), and their
     words are those of the statements, as many for each as it is wide (`words_of_assemble`): so the
     record behind the words before an instruction is that instruction (`record_of_instruction`).
-/
import Minicore.Proofs.Assembly.Statements

namespace Minicore

open Statement (words names)

/-- The map has the name, with a definition of that kind at that word. -/
def AddressMap.Has (map : AddressMap) (x : Text) (kind : Definition) (a : Nat) : Prop :=
  ∃ e, OrderedMap.find? map x = some e ∧ e.kind = kind ∧ e.address.toNat = a

namespace OrderedMap

/-- Nothing is dropped where nothing comes twice. -/
theorem eraseDups_of_nodup {xs : List Text} (h : xs.Nodup) : xs.eraseDups = xs := by
  induction xs using List.reverseRecOn with
  | nil => rfl
  | append_singleton xs x ih =>
    rw [List.nodup_append] at h
    have hx : x ∉ xs := fun hmem => h.2.2 x hmem x (List.mem_singleton_self x) rfl
    rw [eraseDups_concat, if_neg hx, ih h.1]

end OrderedMap

namespace Layout

open SourceLine hiding words

variable {t : Text} {l : Layout} {records : List Record}

/-! ## The map -/

/-- With no name defined twice, a name stands for its only definition. -/
theorem find?_map_of_nodup (h : ofText t = .ok l)
    (hn : (l.lines.filterMap SourceLine.name?).Nodup) {before after : List SourceLine}
    {line : SourceLine} {s : Statement} {x : Text} (hl : l.lines = before ++ line :: after)
    (hs : line.statement = some s) (hx : s.name? = some x) :
    OrderedMap.find? l.map x =
      some ⟨line.index, definition s, UInt16.ofNat (SourceLine.words before)⟩ := by
  have hp := placed_of_ofText h
  obtain ⟨ha, -, -⟩ := address_of_ofText h hl hs
  have hname : line.name? = some x := by rw [name?_of_statement hs, hx]
  have hdefinition := definition?_of_statement hs ha
  rw [hx, Option.map_some] at hdefinition
  rw [hl] at hp hn
  rw [List.filterMap_append, List.filterMap_cons_some hname, List.nodup_append, List.nodup_cons] at hn
  -- no later line defines the name, so this definition is the last one
  obtain ⟨_, _, hrest⟩ := hp.drop.tail
  rw [map_of_ofText h, OrderedMap.find?_ofList_eq_some_iff]
  refine ⟨before.filterMap definition?, after.filterMap definition?, ?_, ?_⟩
  · rw [hl, List.filterMap_append, List.filterMap_cons_some hdefinition]
  · rw [hrest.names]
    exact hn.2.1.1

theorem address?_map_of_nodup (h : ofText t = .ok l)
    (hn : (l.lines.filterMap SourceLine.name?).Nodup) {before after : List SourceLine}
    {line : SourceLine} {s : Statement} {x : Text} (hl : l.lines = before ++ line :: after)
    (hs : line.statement = some s) (hx : s.name? = some x) :
    l.map.address? x = some (UInt16.ofNat (SourceLine.words before)) := by
  rw [AddressMap.address?, find?_map_of_nodup h hn hl hs hx]
  rfl

section Assembled

variable {asm : Assembly} (h : assemble t = .ok asm)
include h

/-- The lines define the names of the statements. -/
theorem names_of_assemble : asm.layout.lines.filterMap name? = names t.statements := by
  obtain ⟨hlay, -⟩ := layout_of_assemble h
  rw [← names_statementsOf, statements_of_ofText hlay]

theorem keys_of_definite (hn : (names t.statements).Nodup) :
    asm.layout.map.keys = names t.statements := by
  obtain ⟨hlay, -⟩ := layout_of_assemble h
  rw [keys_map hlay, names_of_assemble h, OrderedMap.eraseDups_of_nodup hn]

/-- **Where a name stands**: at the words before the statement that defines it. -/
theorem has_of_statement (hn : (names t.statements).Nodup) {before after : List Statement}
    {s : Statement} {x : Text} (hss : t.statements = before ++ s :: after) (hx : s.name? = some x) :
    asm.layout.map.Has x (definition s) (words before) := by
  obtain ⟨hlay, -⟩ := layout_of_assemble h
  obtain ⟨lines, line, rest, hl, hs, hw⟩ := line_of_statement ((statements_of_ofText hlay).trans hss)
  obtain ⟨-, hnat, -⟩ := address_of_ofText hlay hl hs
  refine ⟨_, find?_map_of_nodup hlay (by rw [names_of_assemble h]; exact hn) hl hs hx, rfl, ?_⟩
  rw [← hw]
  exact hnat

/-! ## The records -/

/-- The words of the statements, one behind another; each statement has as many as it is wide. -/
theorem words_of_assemble :
    asm.records.map Record.word = t.statements.flatMap (·.wordsIn asm.layout.map) ∧
      ∀ s ∈ t.statements, (s.wordsIn asm.layout.map).length = s.width := by
  obtain ⟨hlay, hok⟩ := layout_of_assemble h
  have hp := placed_of_ofText hlay
  have hok' : encodeLines asm.layout.map (UInt16.ofNat 0) asm.layout.lines = .ok asm.records := hok
  have hline : ∀ line ∈ asm.layout.lines,
      (line.produced asm.layout.map).map Record.word =
        line.statement.toList.flatMap (·.wordsIn asm.layout.map) ∧
      (line.produced asm.layout.map).length = line.width := by
    intro line hl
    refine ⟨?_, hp.length_produced hok' hl⟩
    obtain ⟨before, after, hlines⟩ := List.append_of_mem hl
    have hp' := hp
    rw [hlines] at hp' hok'
    exact (hp'.produced_spec hok').2.2
  rw [← statements_of_ofText hlay]
  refine ⟨?_, fun s hs => ?_⟩
  · rw [hp.eq_flatMap hok', List.map_flatMap, statementsOf, List.filterMap_eq_flatMap_toList,
      List.flatMap_assoc]
    exact List.flatMap_congr fun line hl => (hline line hl).1
  · obtain ⟨line, hl, hs⟩ := List.mem_filterMap.1 hs
    obtain ⟨hword, hlength⟩ := hline line hl
    rw [hs] at hword
    have hlen := congrArg List.length hword
    rw [List.length_map, hlength, width_of_statement hs] at hlen
    simpa using hlen.symm

/-- One record for each word, at the addresses from zero on. -/
theorem addresses_of_assemble :
    asm.records.map (fun r => r.address.toNat) = List.range (words t.statements) := by
  obtain ⟨hlay, hok⟩ := layout_of_assemble h
  rw [(placed_of_ofText hlay).addresses hok, ← words_statementsOf, statements_of_ofText hlay,
    List.range_eq_range']

/-- **The word at an address** is that of the record there. -/
theorem word_iff {a : Nat} {word : Word} :
    (asm.records.map Record.word)[a]? = some word ↔
      ∃ r ∈ asm.records, r.address.toNat = a ∧ r.word = word := by
  have hposition : ∀ (i : Nat) (r : Record), asm.records[i]? = some r → r.address.toNat = i := by
    intro i r hr
    have haddress := congrArg (·[i]?) (addresses_of_assemble h)
    simp only [List.getElem?_map, hr, Option.map_some] at haddress
    obtain ⟨hi, hrange⟩ := List.getElem?_eq_some_iff.1 haddress.symm
    rw [← hrange, List.getElem_range]
  rw [List.getElem?_map, Option.map_eq_some_iff]
  constructor
  · rintro ⟨r, hr, rfl⟩
    exact ⟨r, List.mem_of_getElem? hr, hposition a r hr, rfl⟩
  · rintro ⟨r, hr, rfl, rfl⟩
    obtain ⟨i, hi⟩ := List.mem_iff_getElem?.1 hr
    exact ⟨r, by rw [hposition i r hi, hi], rfl⟩

/-- Below an address that has a record every address has one. -/
theorem exists_record_of_le {r : Record} (hr : r ∈ asm.records) {a : Nat} (ha : a ≤ r.address.toNat) :
    ∃ q ∈ asm.records, q.address.toNat = a := by
  obtain ⟨hlt, -⟩ := List.getElem?_eq_some_iff.1 ((word_iff h).2 ⟨r, hr, rfl, rfl⟩)
  obtain ⟨q, hq, haddress, -⟩ :=
    (word_iff h).1 (List.getElem?_eq_getElem (Nat.lt_of_le_of_lt ha hlt))
  exact ⟨q, hq, haddress⟩

theorem size_of_assemble : asm.layout.size = words t.statements := by
  obtain ⟨hlay, -⟩ := layout_of_assemble h
  rw [size_of_ofText hlay, ← words_statementsOf, statements_of_ofText hlay]

/-- The words before a statement are an address. -/
theorem toNat_words {before after : List Statement} (hss : t.statements = before ++ after) :
    (UInt16.ofNat (words before)).toNat = words before := by
  have hle := size_le_of_ofText (layout_of_assemble h).1
  rw [size_of_assemble h, hss, Statement.words_append] at hle
  exact toNat_ofNat_of_le_depth (by omega)

/-- The words of a stretch of statements are as many as the stretch is wide. -/
theorem length_wordsIn {ss : List Statement} (hss : ∀ s ∈ ss, s ∈ t.statements) :
    (ss.flatMap (·.wordsIn asm.layout.map)).length = words ss := by
  rw [List.length_flatMap, Statement.words]
  exact congrArg List.sum (List.map_congr_left fun s hs => (words_of_assemble h).2 s (hss s hs))

/-- **What stands at the words before an instruction**: the record of it, with its operand resolved. -/
theorem record_of_instruction {before after : List Statement} {op : Opcode} {param : Option Param}
    (hss : t.statements = before ++ .code op param :: after) :
    ∃ r v, asm.records[words before]? = some r ∧ r.address.toNat = words before ∧
      r.word = .instruction op v ∧ Resolves asm.layout.map param v := by
  obtain ⟨hwords, hlength⟩ := words_of_assemble h
  have hbefore := @length_wordsIn t asm h before fun s hs => by
    rw [hss]
    exact List.mem_append_left _ hs
  -- an instruction has one word, behind those of the statements before it
  obtain ⟨w, hw⟩ := List.length_eq_one_iff.1 (hlength (.code op param) (by rw [hss]; simp))
  obtain ⟨v, rfl, hv⟩ := resolves_of_wordsIn hw
  have hword : (asm.records.map Record.word)[words before]? = some (.instruction op v) := by
    rw [hwords, hss, List.flatMap_append, List.flatMap_cons, hw, ← hbefore,
      List.getElem?_append_right (Nat.le_refl _), Nat.sub_self]
    rfl
  rw [List.getElem?_map, Option.map_eq_some_iff] at hword
  obtain ⟨r, hr, hword⟩ := hword
  have haddress := congrArg (·[words before]?) (addresses_of_assemble h)
  have hlt : words before < words t.statements := by
    rw [hss, Statement.words_append, Statement.words_cons]
    show words before < words before + (1 + words after)
    omega
  simp only [List.getElem?_map, hr, Option.map_some, List.getElem?_range hlt, Option.some.injEq]
    at haddress
  exact ⟨r, v, hr, haddress, hword, hv⟩

end Assembled

end Layout

end Minicore
