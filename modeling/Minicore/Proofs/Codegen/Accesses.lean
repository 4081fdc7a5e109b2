/-
  ACCESSES — which cells a body loads and stores, line by line.

  Problem: a cell is accessed by two lines, one that gets its address and one that goes there.  What a
  body does with its cells is in the ROW of these pairs, across all sequences that the body is made of.

  1. **Program** — `lineAccess?` tells the access of two lines, one directly behind the other;
     `Streams.accesses` lists those of a body in order.

  2. **Specification** — a line that goes somewhere never comes first in a sequence, so the accesses of
     two sequences are those of the one and those of the other (`Performs.append`).

  3. **Sequences** — each instruction sequence of the generator has its accesses (`performs_load0` and
     the lemmas behind it).
-/
import Minicore.Proofs.Codegen.Readable

namespace Minicore

open Statement (AllReadable)

/-! ## Neighbours in a list -/

section Adjacent

variable {α β γ : Type}

/-- What `f` finds in two elements one directly behind the other, in order. -/
def adjacent (f : α → α → Option β) : List α → List β
  | a :: b :: rest => (f a b).toList ++ adjacent f (b :: rest)
  | _ => []

/-- If nothing is found where they meet, two lists have what is found in the one and in the other. -/
theorem adjacent_append {f : α → α → Option β} (l : List α) {m : List α}
    (h : ∀ a, ∀ b ∈ m.head?, f a b = none) : adjacent f (l ++ m) = adjacent f l ++ adjacent f m := by
  induction l with
  | nil => rfl
  | cons a l ih =>
    cases l with
    | nil =>
      cases m with
      | nil => rfl
      | cons b m =>
        show (f a b).toList ++ adjacent f (b :: m) = adjacent f (b :: m)
        rw [h a b rfl]
        rfl
    | cons b l =>
      show (f a b).toList ++ adjacent f (b :: l ++ m) = (f a b).toList ++ adjacent f (b :: l) ++ _
      rw [ih, List.append_assoc]

/-- The same is found in other elements that say the same. -/
theorem adjacent_map {f : α → α → Option β} {f' : γ → γ → Option β} {g : γ → α} {l : List γ}
    (h : ∀ a ∈ l, ∀ b ∈ l, f (g a) (g b) = f' a b) : adjacent f (l.map g) = adjacent f' l := by
  induction l with
  | nil => rfl
  | cons a l ih =>
    cases l with
    | nil => rfl
    | cons b l =>
      show (f (g a) (g b)).toList ++ adjacent f ((b :: l).map g) = _
      rw [ih fun c hc d hd => h c (List.mem_cons_of_mem _ hc) d (List.mem_cons_of_mem _ hd),
        h a List.mem_cons_self b (List.mem_cons_of_mem _ List.mem_cons_self)]
      rfl

end Adjacent

/-! ## Accesses -/

/-- An access to a place. -/
inductive Access (α : Type) where
  | load (place : α)
  | store (place : α)
  deriving Repr, DecidableEq

namespace Access

variable {α β : Type}

/-- The same access to another place. -/
def map (f : α → β) : Access α → Access β
  | .load p => .load (f p)
  | .store p => .store (f p)

theorem map_injective {f : α → β} (hf : ∀ p q, f p = f q → p = q) {a b : Access α}
    (h : a.map f = b.map f) : a = b := by
  cases a with
  | load p =>
    cases b with
    | load q => rw [hf p q (load.inj h)]
    | store q => cases h
  | store p =>
    cases b with
    | load q => cases h
    | store q => rw [hf p q (store.inj h)]

/-- The place, if it is loaded. -/
def loaded? : Access α → Option α
  | .load p => some p
  | .store _ => none

/-- The place, if it is stored to. -/
def stored? : Access α → Option α
  | .load _ => none
  | .store p => some p

end Access

namespace Statement

/-- What an instruction does with the place whose address was got before it. -/
def access : Statement → Option (Text → Access Text)
  | .code .str0 none => some .store
  | .code .ldr0 none => some .load
  | .code .ldr3 none => some .load
  | .code .ldr3i none => some .load
  | _ => none

/-- The access of two statements, the second directly behind the first. -/
def access? (first second : Statement) : Option (Access Text) :=
  match first with
  | .code .mov1 (some (.symbol x)) => second.access.map fun go => go x
  | _ => none

end Statement

/-- The access of two lines, the second directly behind the first. -/
def lineAccess? (first second : Text) : Option (Access Text) :=
  match Statement.read first, Statement.read second with
  | .ok (some s), .ok (some t) => s.access? t
  | _, _ => none

/-- The accesses of a body, in the order of its lines. -/
def Streams.accesses (s : Streams) : List (Access Text) := adjacent lineAccess? s.body

/-- The lines of readable statements have the accesses of the statements. -/
theorem adjacent_bodyLine {ss : List Statement} (h : AllReadable ss) :
    adjacent lineAccess? (ss.map Streams.bodyLine) = adjacent Statement.access? ss := by
  refine adjacent_map fun s hs t ht => ?_
  rw [lineAccess?, (Statement.read_bodyLine (h s hs)).2, (Statement.read_bodyLine (h t ht)).2]

/-! ## Sequences -/

/-- The statements have these accesses, whatever stands in front of them. -/
structure Performs (ss : List Statement) (as : List (Access Cell)) : Prop where
  accesses : adjacent Statement.access? ss = as.map (Access.map Cell.name)
  apart : ss.head?.bind Statement.access = none

/-- **Sequences** one behind another. -/
theorem Performs.append {ss ts : List Statement} {as bs : List (Access Cell)} (hs : Performs ss as)
    (ht : Performs ts bs) : Performs (ss ++ ts) (as ++ bs) := by
  refine ⟨?_, ?_⟩
  · rw [List.map_append, ← hs.accesses, ← ht.accesses]
    refine adjacent_append ss fun s t hmem => ?_
    have hapart := ht.apart
    rw [Option.mem_def.1 hmem, Option.bind_some] at hapart
    unfold Statement.access?
    split
    · rw [hapart]
      rfl
    · rfl
  · cases ss with
    | nil => exact ht.apart
    | cons s ss => exact hs.apart

namespace Code

theorem performs_load0 (c : Cell) : Performs (load0 c) [.load c] := ⟨rfl, rfl⟩

theorem performs_load3 (c : Cell) : Performs (load3 c) [.load c] := ⟨rfl, rfl⟩

theorem performs_store (c : Cell) : Performs (store c) [.store c] := ⟨rfl, rfl⟩

theorem performs_test (c : Cell) (op : Opcode) (l : Label) :
    Performs (test c ++ [branch op l]) [.load c] := ⟨rfl, rfl⟩

theorem performs_branch (op : Opcode) (l : Label) : Performs [branch op l] [] := by
  refine ⟨rfl, ?_⟩
  cases op <;> rfl

theorem performs_mark (l : Label) : Performs [mark l] [] := ⟨rfl, rfl⟩

theorem performs_jump (op : Opcode) (l m : Label) : Performs [branch op l, mark m] [] :=
  (performs_branch op l).append (performs_mark m)

/-- A comparison loads the constants. -/
theorem performs_compare (op : Opcode) (n : Nat) :
    Performs (compare op n) [.load .zero, .load .one] := by
  cases op <;> exact ⟨rfl, rfl⟩

/-- The way into a table is no access to a cell. -/
theorem performs_base (x : Text) : Performs [base x, plain .addp, plain .str3] [] := by
  unfold base tableBase
  split <;> exact ⟨rfl, rfl⟩

end Code

/-- The accesses of an operator. -/
def operatorAccesses : Operator → List (Access Cell)
  | .eq | .lt => [.load .zero, .load .one]
  | _ => []

theorem performs_operatorCode (op : Operator) (n : Nat) :
    Performs (operatorCode op n) (operatorAccesses op) := by
  cases op with
  | add => exact ⟨rfl, rfl⟩
  | sub => exact ⟨rfl, rfl⟩
  | mul => exact ⟨rfl, rfl⟩
  | eq => exact Code.performs_compare _ _
  | lt => exact Code.performs_compare _ _

end Minicore
