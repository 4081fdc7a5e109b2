/-
  ORDERED MAPS — names with values, in the order in which the names first came.

  Problem: the address map and the declaration streams are looked up by name but written out in
  order, and a name that comes again keeps its FIRST place.

  1. **Program** — an association list.  `insert` replaces the value of a name in place, or appends;
     `insertNew` appends only if the name is new.

  2. **Specification** — through the view `find?`: an insert is seen under its own name and under no
     other (`find?_insert`), and the list of names grows only at its end (`keys_insert`).
-/
import Minicore.Text.Blank

namespace Minicore

/-- Names with values, by first insertion. -/
structure OrderedMap (β : Type) where
  entries : List (Text × β)
  deriving Repr

namespace OrderedMap

variable {β : Type}

/-! ## The operations on pairs -/

/-- The value of the first pair with that name. -/
def lookup (name : Text) : List (Text × β) → Option β
  | [] => none
  | (k, w) :: rest => if k = name then some w else lookup name rest

/-- The first pair with that name gets the value `v`; without one, a pair comes at the end. -/
def put (name : Text) (v : β) : List (Text × β) → List (Text × β)
  | [] => [(name, v)]
  | (k, w) :: rest => if k = name then (k, v) :: rest else (k, w) :: put name v rest

/-- A pair comes at the end, unless the name is there. -/
def putNew (name : Text) (v : β) : List (Text × β) → List (Text × β)
  | [] => [(name, v)]
  | (k, w) :: rest => if k = name then (k, w) :: rest else (k, w) :: putNew name v rest

/-! ## The operations on maps -/

/-- The map without names. -/
def empty : OrderedMap β := ⟨[]⟩

/-- The names, in order. -/
def keys (m : OrderedMap β) : List Text := m.entries.map Prod.fst

/-- The number of names. -/
def size (m : OrderedMap β) : Nat := m.entries.length

/-- The value of a name. -/
def find? (m : OrderedMap β) (name : Text) : Option β := lookup name m.entries

/-- Gives `name` the value `v`: in its place if it has one, else at the end. -/
def insert (m : OrderedMap β) (name : Text) (v : β) : OrderedMap β := ⟨put name v m.entries⟩

/-- Gives `name` the value `v` unless it has one. -/
def insertNew (m : OrderedMap β) (name : Text) (v : β) : OrderedMap β := ⟨putNew name v m.entries⟩

/-- The map of these pairs, inserted in order. -/
def ofList (pairs : List (Text × β)) : OrderedMap β :=
  pairs.foldl (fun m e => m.insert e.1 e.2) empty

/-! ## Look-up after an insert -/

/-- An insert is seen under its OWN name and under no other. -/
theorem find?_insert (m : OrderedMap β) (name : Text) (v : β) (other : Text) :
    (m.insert name v).find? other = if name = other then some v else m.find? other := by
  obtain ⟨es⟩ := m
  simp only [insert, find?]
  induction es with
  | nil => simp [put, lookup]
  | cons e es ih =>
    obtain ⟨k, w⟩ := e
    by_cases hk : k = name
    · subst hk
      by_cases ho : k = other <;> simp [put, lookup, ho]
    · by_cases ho : k = other
      · subst ho
        simp [put, lookup, hk, Ne.symm hk]
      · simp [put, lookup, hk, ho, ih]

/-- An insert of a new name is seen; an old name keeps its value. -/
theorem find?_insertNew (m : OrderedMap β) (name : Text) (v : β) (other : Text) :
    (m.insertNew name v).find? other =
      if name = other then some ((m.find? name).getD v) else m.find? other := by
  obtain ⟨es⟩ := m
  simp only [insertNew, find?]
  induction es with
  | nil => simp [putNew, lookup]
  | cons e es ih =>
    obtain ⟨k, w⟩ := e
    by_cases hk : k = name
    · subst hk
      by_cases ho : k = other <;> simp [putNew, lookup, ho]
    · by_cases ho : k = other
      · subst ho
        simp [putNew, lookup, hk, Ne.symm hk]
      · simp [putNew, lookup, hk, ho, ih]

/-! ## The order of the names -/

/-- An insert keeps the PLACE of an old name and puts a new one at the end. -/
theorem keys_insert (m : OrderedMap β) (name : Text) (v : β) :
    (m.insert name v).keys = if name ∈ m.keys then m.keys else m.keys ++ [name] := by
  obtain ⟨es⟩ := m
  simp only [insert, keys]
  induction es with
  | nil => simp [put]
  | cons e es ih =>
    obtain ⟨k, w⟩ := e
    by_cases hk : k = name
    · subst hk; simp [put]
    · by_cases hm : name ∈ es.map Prod.fst <;>
        simp only [put, hk, if_false, List.map_cons, ih, hm, List.mem_cons, Ne.symm hk, or_true,
          or_self, if_true, List.cons_append]

/-- The same places, whichever of the two values a name keeps. -/
theorem keys_insertNew (m : OrderedMap β) (name : Text) (v : β) :
    (m.insertNew name v).keys = if name ∈ m.keys then m.keys else m.keys ++ [name] := by
  obtain ⟨es⟩ := m
  simp only [insertNew, keys]
  induction es with
  | nil => simp [putNew]
  | cons e es ih =>
    obtain ⟨k, w⟩ := e
    by_cases hk : k = name
    · subst hk; simp [putNew]
    · by_cases hm : name ∈ es.map Prod.fst <;>
        simp only [putNew, hk, if_false, List.map_cons, ih, hm, List.mem_cons, Ne.symm hk, or_true,
          or_self, if_true, List.cons_append]

end OrderedMap

/-! ## Running the program -/

example : (OrderedMap.ofList [(['a'], 1), (['b'], 2), (['a'], 3)]).entries =
    [(['a'], 3), (['b'], 2)] := by decide

end Minicore
