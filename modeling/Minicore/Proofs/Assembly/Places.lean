/-
  PLACES — where names stand, told by the statements alone.

  Problem: the address map says of a name where it stands and on which line that was said.  The lines are
  of interest to a reader of warnings only; everything that goes into the words depends on the
  statements.

  1. **Program** — `Statement.definitions` walks the statements and lists the names that they define, each
     with its kind and the words before it.

  2. **The map** — without its line indices it is filled with these definitions, in order
     (`places_of_assemble`).  So a name stands for the words before the LAST statement that defines it,
     and for nothing else (`address?_eq_some_iff`).
-/
import Minicore.Proofs.Assembly.Definite

namespace Minicore

namespace Statement

/-! ## Definitions -/

/-- The names that the statements define, in order: what each is, and its address, when `pc` words come
    before. -/
def definitions (pc : Nat) : List Statement → List (Text × Definition × UInt16)
  | [] => []
  | s :: ss => (s.name?.map fun x => (x, Layout.definition s, UInt16.ofNat pc)).toList ++
      definitions (pc + s.width) ss

theorem names_definitions (pc : Nat) (ss : List Statement) :
    (definitions pc ss).map Prod.fst = names ss := by
  induction ss generalizing pc with
  | nil => rfl
  | cons s ss ih =>
    rw [definitions, List.map_append, ih]
    cases hs : s.name? with
    | none => rw [names, names, List.filterMap_cons_none hs]; rfl
    | some x => rw [names, names, List.filterMap_cons_some hs]; rfl

/-- What is defined somewhere is defined by a statement, behind the words before it. -/
theorem exists_of_definitions {pc : Nat} {ss : List Statement} {x : Text} {kind : Definition}
    {a : UInt16} {before after : List (Text × Definition × UInt16)}
    (h : definitions pc ss = before ++ (x, kind, a) :: after) :
    ∃ as s bs, ss = as ++ s :: bs ∧ s.name? = some x ∧ a = UInt16.ofNat (pc + words as) ∧
      names bs = after.map Prod.fst := by
  induction ss generalizing pc before with
  | nil => simp [definitions] at h
  | cons s ss ih =>
    -- a statement in front adds its width to the words before
    have hbehind : ∀ {before'}, definitions (pc + s.width) ss = before' ++ (x, kind, a) :: after →
        ∃ as s' bs, s :: ss = as ++ s' :: bs ∧ s'.name? = some x ∧ a = UInt16.ofNat (pc + words as) ∧
          names bs = after.map Prod.fst := by
      intro before' h'
      obtain ⟨as, s', bs, rfl, hx, ha, hnames⟩ := ih h'
      refine ⟨s :: as, s', bs, rfl, hx, ?_, hnames⟩
      rw [ha, words_cons, Nat.add_assoc]
    rw [definitions] at h
    cases hs : s.name? with
    | none =>
      rw [hs] at h
      exact hbehind h
    | some y =>
      rw [hs] at h
      cases before with
      | nil =>
        obtain ⟨hfirst, hafter⟩ := List.cons.inj h
        obtain ⟨rfl, -, rfl⟩ : y = x ∧ Layout.definition s = kind ∧ UInt16.ofNat pc = a := by
          simpa using hfirst
        exact ⟨[], s, ss, rfl, hs, rfl, by rw [← hafter]; exact (names_definitions _ ss).symm⟩
      | cons d before => exact hbehind (List.cons.inj h).2

theorem definitions_append (pc : Nat) (ss ts : List Statement) :
    definitions pc (ss ++ ts) = definitions pc ss ++ definitions (pc + words ss) ts := by
  induction ss generalizing pc with
  | nil => rfl
  | cons s ss ih =>
    rw [List.cons_append, definitions, definitions, ih, words_cons, List.append_assoc, Nat.add_assoc]

end Statement

/-! ## The map -/

/-- Where the names stand, without the lines that say so. -/
def AddressMap.places (map : AddressMap) : List (Text × Definition × UInt16) :=
  map.entries.map fun d => (d.1, d.2.kind, d.2.address)

/-- The address of a name is that of its place. -/
theorem AddressMap.address?_eq (map : AddressMap) (x : Text) :
    map.address? x = (OrderedMap.lookup x map.places).map Prod.snd := by
  have hlookup := OrderedMap.lookup_rename (g := id) (x := x)
    (fun e : Entry => (e.kind, e.address)) map.entries fun e _ h => h
  rw [AddressMap.address?, AddressMap.places, OrderedMap.find?]
  simp only [id_eq] at hlookup
  rw [hlookup, Option.map_map]
  rfl

namespace Layout

open SourceLine hiding words
open Statement (words names definitions)

/-- The places of a layout are those of its statements. -/
theorem Placed.definitions {i pc : Nat} {ls : List SourceLine} (h : Placed i pc ls) :
    (ls.filterMap definition?).map (fun d => (d.1, d.2.kind, d.2.address)) =
      Statement.definitions pc (statementsOf ls) := by
  induction h with
  | nil => rfl
  | skip _ _ ih =>
    rw [List.filterMap_cons_none rfl, statementsOf, List.filterMap_cons_none rfl]
    exact ih
  | @statement i pc raw s ls _ _ _ ih =>
    have hstatements : statementsOf (⟨i, raw, some s, some (UInt16.ofNat pc)⟩ :: ls) =
        s :: statementsOf ls := rfl
    rw [hstatements, Statement.definitions, ← ih]
    cases hs : s.name? with
    | none =>
      rw [List.filterMap_cons_none (by simp [definition?, hs])]
      rfl
    | some x =>
      rw [List.filterMap_cons_some (definition?_of_statement rfl rfl |>.trans (by rw [hs]; rfl))]
      rfl

theorem places_of_assemble {t : Text} {asm : Assembly} (h : assemble t = .ok asm) :
    asm.layout.map.places = (OrderedMap.ofList (definitions 0 t.statements)).entries := by
  obtain ⟨hlay, -⟩ := layout_of_assemble h
  rw [← statements_of_ofText hlay, ← (placed_of_ofText hlay).definitions, AddressMap.places,
    map_of_ofText hlay]
  exact (OrderedMap.entries_ofList_map (fun e : Entry => (e.kind, e.address)) _).symm

/-- **The last definition counts**: a name stands for the words before the last statement that defines
    it. -/
theorem address?_eq_some_iff {t : Text} {asm : Assembly} (h : assemble t = .ok asm) {x : Text}
    {a : UInt16} : asm.layout.map.address? x = some a ↔
      ∃ as s bs, t.statements = as ++ s :: bs ∧ s.name? = some x ∧ x ∉ names bs ∧
        a = UInt16.ofNat (words as) := by
  have hfind : asm.layout.map.address? x =
      (OrderedMap.find? (OrderedMap.ofList (definitions 0 t.statements)) x).map Prod.snd := by
    rw [AddressMap.address?_eq, places_of_assemble h]
    rfl
  rw [hfind, Option.map_eq_some_iff]
  constructor
  · rintro ⟨⟨kind, b⟩, hplace, rfl⟩
    obtain ⟨before, after, hsplit, hafter⟩ := OrderedMap.find?_ofList_eq_some_iff.1 hplace
    obtain ⟨as, s, bs, hss, hx, rfl, hnames⟩ := Statement.exists_of_definitions hsplit
    exact ⟨as, s, bs, hss, hx, by rwa [hnames], by rw [Nat.zero_add]⟩
  · rintro ⟨as, s, bs, hss, hx, hbs, rfl⟩
    refine ⟨(definition s, UInt16.ofNat (words as)), OrderedMap.find?_ofList_eq_some_iff.2 ?_, rfl⟩
    refine ⟨definitions 0 as, definitions (words as + s.width) bs, ?_, ?_⟩
    · rw [hss, Statement.definitions_append, definitions, hx, Nat.zero_add]
      rfl
    · rwa [Statement.names_definitions]

end Layout

end Minicore
