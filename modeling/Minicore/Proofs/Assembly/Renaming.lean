/-
  RENAMING — the same words under other names.

  Problem: a person who moves lines about, adds blanks or gives every place another name expects the
  same machine code.  The assembler sees lines with indices and texts, maps with insertion orders, and
  looks names up by spelling; none of that may show in the words.

  1. **Statements decide** — of a text whose lines can all be read, everything is told by its statements
     alone: the first statement that does not fit (`Statement.overflow?`), without one the first symbol
     that none defines (`Statement.undefined?`), without either the words, and the map up to line
     indices (`Statement.definitions`).  So skipped lines and layout are out of the way
     (`verdict_of_readable`, `places_of_assemble`).

  2. **Renaming commutes** — each of these is a walk over statements, and a renaming that keeps the names
     that OCCUR apart goes through it: widths do not change, look-ups go to the same place
     (`OrderedMap.lookup_rename`), a first definition stays the first.

  3. **Two runs** — `assemble_rename` puts the two together.  The texts may differ in everything but
     their statements.
-/
import Minicore.Proofs.Assembly.Outcome
import Minicore.Proofs.Assembly.Places
import Mathlib.Data.List.Find

namespace Minicore

/-! ## Renaming -/

/-- The parameter with its symbol renamed. -/
def Param.rename (f : Text → Text) : Param → Param
  | .literal v => .literal v
  | .symbol name => .symbol (f name)

namespace Statement

/-- The statement with the name it defines, or the symbol it refers to, renamed. -/
def rename (f : Text → Text) : Statement → Statement
  | .code op param => .code op (param.map (Param.rename f))
  | .label name => .label (f name)
  | .data name values => .data (f name) values

/-- The names that occur in these statements, defined or referred to. -/
def occurring (ss : List Statement) : List Text := names ss ++ references ss

/-! ## What the statements decide -/

/-- The number of words up to the first statement that does not fit the image, when `pc` words come
    before. -/
def overflow? (pc : Nat) : List Statement → Option Nat
  | [] => none
  | s :: ss => if imageDepth < pc + s.width then some (pc + s.width) else overflow? (pc + s.width) ss

/-- The first symbol that is referred to and not defined. -/
def undefined? (ss : List Statement) : Option Text := (references ss).find? fun x => x ∉ names ss

/-- Words that fit never overflow. -/
theorem overflow?_eq_none {pc : Nat} {ss : List Statement} (h : pc + words ss ≤ imageDepth) :
    overflow? pc ss = none := by
  induction ss generalizing pc with
  | nil => rfl
  | cons s ss ih =>
    rw [words_cons] at h
    rw [overflow?, if_neg (by omega)]
    exact ih (by omega)

/-- The first statement that does not fit stands behind statements that do. -/
theorem overflow?_eq_some {pc : Nat} {as bs : List Statement} {s : Statement}
    (hfit : pc + words as ≤ imageDepth) (hover : imageDepth < pc + words (as ++ [s])) :
    overflow? pc (as ++ s :: bs) = some (pc + words (as ++ [s])) := by
  induction as generalizing pc with
  | nil =>
    simp only [List.nil_append, words_cons, words_nil, Nat.add_zero] at hover ⊢
    rw [overflow?, if_pos hover]
  | cons a as ih =>
    simp only [List.cons_append, words_cons, ← Nat.add_assoc] at hfit hover ⊢
    rw [overflow?, if_neg (by omega)]
    exact ih (by omega) hover

/-- The first undefined symbol stands behind references that are defined. -/
theorem undefined?_eq_some {ss as bs : List Statement} {s : Statement} {x : Text}
    (hss : ss = as ++ s :: bs) (hbefore : (references as).find? (fun y => y ∉ names ss) = none)
    (href : s.reference? = some x) (hx : x ∉ names ss) : undefined? ss = some x := by
  have hreferences : references ss = references as ++ x :: references bs := by
    rw [hss, references_append]
    simp only [references, List.filterMap_cons_some href]
  rw [undefined?, hreferences, List.find?_append, hbefore, Option.none_or,
    List.find?_cons_of_pos (by simpa using hx)]

/-! ## Renamed statements -/

section Renamed

variable {f : Text → Text}

@[simp] theorem width_rename (s : Statement) : (s.rename f).width = s.width := by
  cases s <;> rfl

@[simp] theorem name?_rename (s : Statement) : (s.rename f).name? = s.name?.map f := by
  cases s <;> rfl

@[simp] theorem definition_rename (s : Statement) :
    Layout.definition (s.rename f) = Layout.definition s := by
  cases s <;> rfl

@[simp] theorem reference?_rename (s : Statement) : (s.rename f).reference? = s.reference?.map f := by
  rcases s with ⟨op, _ | ⟨v⟩ | ⟨name⟩⟩ | name | ⟨name, values⟩ <;> rfl

@[simp] theorem names_rename (ss : List Statement) :
    names (ss.map (rename f)) = (names ss).map f := by
  rw [names, names, List.filterMap_map, List.map_filterMap]
  exact List.filterMap_congr fun s _ => name?_rename s

@[simp] theorem references_rename (ss : List Statement) :
    references (ss.map (rename f)) = (references ss).map f := by
  rw [references, references, List.filterMap_map, List.map_filterMap]
  exact List.filterMap_congr fun s _ => reference?_rename s

@[simp] theorem words_rename (ss : List Statement) : words (ss.map (rename f)) = words ss := by
  rw [words, words, List.map_map]
  exact congrArg List.sum (List.map_congr_left fun s _ => width_rename s)

/-- Names take no room. -/
theorem overflow?_rename (pc : Nat) (ss : List Statement) :
    overflow? pc (ss.map (rename f)) = overflow? pc ss := by
  induction ss generalizing pc with
  | nil => rfl
  | cons s ss ih => rw [List.map_cons, overflow?, overflow?, width_rename, ih]

theorem definitions_rename (pc : Nat) (ss : List Statement) :
    definitions pc (ss.map (rename f)) = (definitions pc ss).map fun d => (f d.1, d.2) := by
  induction ss generalizing pc with
  | nil => rfl
  | cons s ss ih =>
    rw [List.map_cons, definitions, definitions, List.map_append, width_rename, ih, name?_rename,
      definition_rename]
    cases s.name? <;> rfl

/-- A symbol is defined under its other name exactly when it is defined. -/
theorem undefined?_rename {ss : List Statement} (hf : Set.InjOn f {x | x ∈ occurring ss}) :
    undefined? (ss.map (rename f)) = (undefined? ss).map f := by
  rw [undefined?, undefined?, references_rename, names_rename, List.find?_map]
  congr 1
  refine List.find?_congr fun x hx => ?_
  have hmem : f x ∈ (names ss).map f ↔ x ∈ names ss := by
    constructor
    · intro h
      obtain ⟨y, hy, heq⟩ := List.mem_map.1 h
      obtain rfl := hf (List.mem_append_left _ hy) (List.mem_append_right _ hx) heq
      exact hy
    · exact List.mem_map_of_mem
  simp only [Function.comp_apply, hmem]

/-- The words are the same where the symbols stand for the same addresses. -/
theorem wordsIn_rename {map map' : AddressMap} (s : Statement)
    (h : ∀ x ∈ s.reference?, map'.address? (f x) = map.address? x) :
    (s.rename f).wordsIn map' = s.wordsIn map := by
  rcases s with ⟨op, _ | ⟨v⟩ | ⟨x⟩⟩ | name | ⟨name, values⟩
  · rfl
  · rfl
  · have hx := h x rfl
    simp only [rename, Option.map_some, Param.rename, wordsIn, AddressMap.resolve, hx]
    cases map.address? x <;> rfl
  · rfl
  · rfl

end Renamed

end Statement

namespace Layout

open Statement (words names references overflow? undefined?)

/-! ## Readable texts -/

/-- Every line can be read. -/
def AllRead (t : Text) : Prop := ∀ line ∈ t.lines, ∃ s, Statement.read line = .ok s

/-- How an assembly ends: with too many words, else with a symbol that is not defined, else well. -/
inductive Verdict : Option Nat → Option Text → Except Fault Assembly → Prop
  | overflow {k : Nat} {x : Option Text} {f : Fault} :
      f.cause = .imageOverflow k imageDepth → Verdict (some k) x (.error f)
  | unresolved {x : Text} {f : Fault} :
      f.cause = .unresolvedSymbol x → Verdict none (some x) (.error f)
  | ok {asm : Assembly} : Verdict none none (.ok asm)

/-- The references of a stretch of lines, if they are not dangling, are defined. -/
theorem find?_references_of_clear {t : Text} {raws : List Text}
    (h : ∀ line ∈ raws, ∀ y, ¬ Dangling t line y) :
    (references (raws.filterMap Statement.ofLine?)).find? (fun x => x ∉ names t.statements) = none := by
  rw [List.find?_eq_none]
  intro x hx
  obtain ⟨s, hs, href⟩ := List.mem_filterMap.1 hx
  obtain ⟨line, hline, hread⟩ := List.mem_filterMap.1 hs
  obtain ⟨op, rfl⟩ := Statement.reference?_eq_some_iff.1 href
  rw [Statement.ofLine?_eq_some_iff] at hread
  by_contra hnot
  exact h line hline x ⟨⟨op, hread⟩, by simpa using hnot⟩

/-- **Statements decide** how the assembly of a readable text ends. -/
theorem verdict_of_readable {t : Text} (ht : AllRead t) :
    Verdict (overflow? 0 t.statements) (undefined? t.statements) (assemble t) := by
  rcases assemble_outcome t with ⟨before, raw, after, c, hlines, hclear, hobstacle, hassemble⟩ |
    ⟨hclear, hrest⟩
  · rw [hassemble]
    have hbefore : wordsOf before ≤ imageDepth :=
      wordsOf_le_of_clear (fun line hl => ht line (by rw [hlines]; simp [hl])) hclear
    cases hobstacle with
    | unreadable herror =>
      obtain ⟨s, hs⟩ := ht raw (by rw [hlines]; simp)
      rw [hs] at herror
      cases herror
    | @overflow s hread hover =>
      have hline := wordsOf_append before [raw]
      have hofLine := Statement.ofLine?_of_read hread
      cases s with
      | none =>
        -- a line that is no statement adds no words
        rw [wordsOf_of_none hofLine] at hline
        omega
      | some s =>
        have hwords : wordsOf (before ++ [raw]) =
            0 + words (before.filterMap Statement.ofLine? ++ [s]) := by
          rw [wordsOf, List.filterMap_append, List.filterMap_cons_some hofLine, List.filterMap_nil,
            Nat.zero_add]
        have hstatements : t.statements = before.filterMap Statement.ofLine? ++
            s :: after.filterMap Statement.ofLine? := by
          rw [Text.statements, hlines, List.filterMap_append, List.filterMap_cons_some hofLine]
        rw [hwords] at hover ⊢
        rw [hstatements, Statement.overflow?_eq_some (by rw [Nat.zero_add]; exact hbefore) hover]
        exact .overflow rfl
  · rw [Statement.overflow?_eq_none (by rw [Nat.zero_add]; exact wordsOf_le_of_clear ht hclear)]
    rcases hrest with ⟨before, raw, after, x, hlines, hbefore, ⟨⟨op, hraw⟩, hx⟩, hassemble⟩ |
      ⟨hall, asm, hassemble⟩
    · have hofLine := Statement.ofLine?_of_read hraw
      have hstatements : t.statements = before.filterMap Statement.ofLine? ++
          .code op (some (.symbol x)) :: after.filterMap Statement.ofLine? := by
        rw [Text.statements, hlines, List.filterMap_append, List.filterMap_cons_some hofLine]
      rw [hassemble, Statement.undefined?_eq_some hstatements (find?_references_of_clear hbefore)
        (Statement.reference?_eq_some_iff.2 ⟨op, rfl⟩) hx]
      exact .unresolved rfl
    · have hdefined : undefined? t.statements = none := find?_references_of_clear hall
      rw [hassemble, hdefined]
      exact .ok

/-! ## Two texts -/

section Renamed

variable {f : Text → Text} {t u : Text} {a b : Assembly}

/-- The places of the second text are those of the first under their other names. -/
theorem places_rename (hf : Set.InjOn f {x | x ∈ Statement.occurring t.statements})
    (h : u.statements = t.statements.map (Statement.rename f)) (ha : assemble t = .ok a)
    (hb : assemble u = .ok b) :
    b.layout.map.places = a.layout.map.places.map fun d => (f d.1, d.2) := by
  rw [places_of_assemble hb, places_of_assemble ha, h, Statement.definitions_rename]
  refine OrderedMap.entries_ofList_rename (fun place : Definition × UInt16 => place) (hf.mono ?_)
  intro x hx
  rw [Set.mem_ofPred_eq, Statement.names_definitions] at hx
  exact List.mem_append_left _ hx

/-- A name that occurs stands, under its other name, where it stood. -/
theorem address?_rename (hf : Set.InjOn f {x | x ∈ Statement.occurring t.statements})
    (h : u.statements = t.statements.map (Statement.rename f)) (ha : assemble t = .ok a)
    (hb : assemble u = .ok b) {x : Text} (hx : x ∈ Statement.occurring t.statements) :
    b.layout.map.address? (f x) = a.layout.map.address? x := by
  rw [AddressMap.address?_eq, AddressMap.address?_eq, places_rename hf h ha hb]
  have hlookup := OrderedMap.lookup_rename (g := f) (x := x) (fun place : Definition × UInt16 => place)
    a.layout.map.places ?_
  · rw [hlookup, Option.map_id']
  · intro e he heq
    rw [places_of_assemble ha] at he
    have hname := OrderedMap.mem_of_mem_entries he
    rw [Statement.names_definitions] at hname
    exact hf (List.mem_append_left _ hname) hx heq

/-- **The same words under other names.**  Take two texts whose lines can all be read, where the
    statements of the second are those of the first with every name renamed, and the renaming keeps the
    names that occur in the first apart.  Either both have too many words, up to the same number; or
    both stop at a symbol, and the second's is the first's renamed; or both assemble, to images of one
    size with the same words at the same addresses, and the names stand at the same places in the same
    order. -/
theorem assemble_rename (ht : AllRead t) (hu : AllRead u)
    (hf : Set.InjOn f {x | x ∈ Statement.occurring t.statements})
    (h : u.statements = t.statements.map (Statement.rename f)) :
    (∃ ft fu k, assemble t = .error ft ∧ assemble u = .error fu ∧
      ft.cause = .imageOverflow k imageDepth ∧ fu.cause = .imageOverflow k imageDepth) ∨
    (∃ ft fu x, assemble t = .error ft ∧ assemble u = .error fu ∧
      ft.cause = .unresolvedSymbol x ∧ fu.cause = .unresolvedSymbol (f x)) ∨
    ∃ a b, assemble t = .ok a ∧ assemble u = .ok b ∧ b.layout.size = a.layout.size ∧
      b.records.map Record.address = a.records.map Record.address ∧
      b.records.map Record.word = a.records.map Record.word ∧
      b.layout.map.places = a.layout.map.places.map fun d => (f d.1, d.2) := by
  have hvt := verdict_of_readable ht
  have hvu := verdict_of_readable hu
  -- the same walks over the statements tell how both runs end
  rw [h, Statement.overflow?_rename, Statement.undefined?_rename hf] at hvu
  generalize hat : assemble t = rt at hvt
  generalize hau : assemble u = ru at hvu
  generalize overflow? 0 t.statements = k at hvt hvu
  generalize undefined? t.statements = x at hvt hvu
  cases hvt with
  | overflow hcause =>
    cases hvu with
    | overflow hcause' => exact .inl ⟨_, _, _, rfl, rfl, hcause, hcause'⟩
  | unresolved hcause =>
    cases hvu with
    | unresolved hcause' => exact .inr (.inl ⟨_, _, _, rfl, rfl, hcause, hcause'⟩)
  | @ok a =>
    cases hvu with
    | @ok b =>
      refine .inr (.inr ⟨a, b, rfl, rfl, ?_, ?_, ?_, places_rename hf h hat hau⟩)
      · rw [size_of_assemble hau, size_of_assemble hat, h, Statement.words_rename]
      · apply List.map_injective_iff.2 (fun _ _ => UInt16.toNat_inj.1)
        have hadr := addresses_of_assemble hau
        rw [h, Statement.words_rename, ← addresses_of_assemble hat] at hadr
        rw [List.map_map, List.map_map]
        exact hadr
      · rw [(words_of_assemble hau).1, (words_of_assemble hat).1, h, List.flatMap_map]
        refine List.flatMap_congr fun s hs => Statement.wordsIn_rename s fun x hx => ?_
        exact address?_rename hf h hat hau
          (List.mem_append_right _ (List.mem_filterMap.2 ⟨s, hs, hx⟩))

/-- A loop over a declared cell. -/
def namedPlainly : Text := "loop\nMOV R1, #t\nBEQ end\nB loop\n\nend\nt DCB 1, 2\n".toList

/-- The same under other names, with other blanks and a line that is no statement. -/
def namedOtherwise : Text :=
  "  again\nMOV  R1,#table\nno line at all\n\tBEQ stop\nB again\nstop\ntable DCB 0x1, 0b10\n".toList

/-- The one name for the other. -/
def otherwise (x : Text) : Text :=
  if x = "loop".toList then "again".toList
  else if x = "end".toList then "stop".toList
  else if x = "t".toList then "table".toList
  else x

theorem assemble_namedOtherwise :
    ∃ a b, assemble namedPlainly = .ok a ∧ assemble namedOtherwise = .ok b ∧
      b.records.map Record.word = a.records.map Record.word ∧
      b.layout.map.places = a.layout.map.places.map fun d => (otherwise d.1, d.2) := by
  have hread : ∀ t ∈ [namedPlainly, namedOtherwise], AllRead t := by
    intro t ht line hl
    have hall : ∀ t ∈ [namedPlainly, namedOtherwise], ∀ line ∈ t.lines,
        (Statement.read line).toBool = true := by decide +kernel
    have hline := hall t ht line hl
    cases hs : Statement.read line with
    | error c => rw [hs] at hline; cases hline
    | ok s => exact ⟨s, rfl⟩
  have hinj : Set.InjOn otherwise {x | x ∈ Statement.occurring namedPlainly.statements} := by
    have hall : ∀ x ∈ Statement.occurring namedPlainly.statements,
        ∀ y ∈ Statement.occurring namedPlainly.statements, otherwise x = otherwise y → x = y := by
      decide +kernel
    exact fun x hx y hy => hall x hx y hy
  have hok : (assemble namedPlainly).toBool = true := by decide +kernel
  rcases assemble_rename (hread namedPlainly (by simp)) (hread namedOtherwise (by simp)) hinj
    (by decide +kernel) with
    ⟨f, g, k, hf, -⟩ | ⟨f, g, x, hf, -⟩ | ⟨a, b, ha, hb, -, -, hwords, hplaces⟩
  · rw [hf] at hok; cases hok
  · rw [hf] at hok; cases hok
  · exact ⟨a, b, ha, hb, hwords, hplaces⟩

end Renamed

end Layout

end Minicore
