/-
  EXPRESSIONS — the code of an expression leaves its value in its cell.

  Problem: an expression is evaluated into temporaries, and its operands have to survive until the
  operator is applied: the left one while the right one is evaluated, a literal for as long as the
  program runs.

  1. **Constants** — a literal is a temporary that is never written.  All of them (`Holds`) keep their
     values in every run; those of one node are the ones between its two counters (`Fits`).

  2. **Values** — `ExpressionCode.run`, by induction on the code: the value is in the cell, and only the
     temporaries of the expression have changed.  A LEFT operand survives because the right one has
     later temporaries (`ExpressionCode.kept`).
-/
import Minicore.Proofs.Meaning.Sequences

namespace Minicore

open Machine (Reaches)
open Statement (words)

/-! ## Constants -/

/-- The temporaries hold these constants. -/
def Holds (ks : List (Nat × UInt16)) (t : Nat → UInt16) : Prop := ∀ d ∈ ks, t d.1 = d.2

/-- All these constants have numbers above `lo` up to `hi`. -/
def Within (lo hi : Nat) (ks : List (Nat × UInt16)) : Prop :=
  lo ≤ hi ∧ ∀ d ∈ ks, lo < d.1 ∧ d.1 ≤ hi

/-- Of all constants, these are the ones with numbers above `lo` up to `hi`. -/
def Fits (all : List (Nat × UInt16)) (lo hi : Nat) (ks : List (Nat × UInt16)) : Prop :=
  ∀ d, d ∈ ks ↔ d ∈ all ∧ lo < d.1 ∧ d.1 ≤ hi

theorem Within.append {lo mid hi : Nat} {ks ls : List (Nat × UInt16)} (hk : Within lo mid ks)
    (hl : Within mid hi ls) : Within lo hi (ks ++ ls) := by
  have hle := hk.1
  have hle' := hl.1
  refine ⟨Nat.le_trans hle hle', fun d hd => ?_⟩
  rcases List.mem_append.1 hd with hd | hd
  · have := hk.2 d hd
    omega
  · have := hl.2 d hd
    omega

theorem Numbered.within {n₀ n₁ : Names} {e : Emission} {ks : List (Nat × UInt16)}
    (h : Numbered n₀ n₁ e) (hk : ks.Sublist e.temps) : Within n₀.temps n₁.temps ks :=
  ⟨h.le, fun d hd => (h.mem_iff d.1).1 (List.mem_map_of_mem (hk.subset hd))⟩

theorem ExpressionCode.within {n : Node} {n₀ n₁ : Names} {c : Cell} {e : Emission}
    {ks : List (Nat × UInt16)} (h : ExpressionCode n n₀ c n₁ e ks) : Within n₀.temps n₁.temps ks :=
  h.numbered.within h.constants

theorem StatementCode.within {n : Node} {n₀ n₁ : Names} {e : Emission} {ks : List (Nat × UInt16)}
    (h : StatementCode n n₀ n₁ e ks) : Within n₀.temps n₁.temps ks :=
  h.numbered.within h.constants

namespace Fits

variable {all ks ls : List (Nat × UInt16)} {lo mid hi top : Nat}

/-- The constants of the first of two nodes. -/
theorem left (h : Fits all lo top (ks ++ ls)) (hk : Within lo mid ks) (hl : Within mid hi ls)
    (htop : hi ≤ top) : Fits all lo mid ks := by
  obtain ⟨hle, hk⟩ := hk
  obtain ⟨hle', hl⟩ := hl
  intro d
  constructor
  · intro hd
    have hall := (h d).1 (List.mem_append_left _ hd)
    exact ⟨hall.1, hk d hd⟩
  · rintro ⟨hall, hlo, hmid⟩
    rcases List.mem_append.1 ((h d).2 ⟨hall, hlo, by omega⟩) with hd | hd
    · exact hd
    · have := hl d hd
      omega

/-- The constants of the second. -/
theorem right (h : Fits all lo top (ks ++ ls)) (hk : Within lo mid ks) (hl : Within mid hi ls)
    (htop : hi ≤ top) : Fits all mid hi ls := by
  obtain ⟨hle, hk⟩ := hk
  obtain ⟨hle', hl⟩ := hl
  intro d
  constructor
  · intro hd
    have hall := (h d).1 (List.mem_append_right _ hd)
    exact ⟨hall.1, hl d hd⟩
  · rintro ⟨hall, hmid, hhi⟩
    rcases List.mem_append.1 ((h d).2 ⟨hall, by omega, by omega⟩) with hd | hd
    · have := hk d hd
      omega
    · exact hd

theorem nil : Fits all lo lo [] := by
  intro d
  constructor
  · intro hd
    cases hd
  · rintro ⟨-, hlo, hhi⟩
    omega

end Fits

/-- Behind the constants of the operands there is room for a value. -/
theorem Holds.setTemp {all ks : List (Nat × UInt16)} {t : Nat → UInt16} {lo hi : Nat} {v : UInt16}
    (h : Holds all t) (hfits : Fits all lo (hi + 1) ks) (hk : Within lo hi ks) :
    Holds all (setTemp t (hi + 1) v) := by
  intro d hd
  have hne : d.1 ≠ hi + 1 := by
    intro heq
    have hmem := (hfits d).2 ⟨hd, by have := hk.1; omega, by omega⟩
    have := hk.2 d hmem
    omega
  show (if d.1 = hi + 1 then v else t d.1) = d.2
  rw [if_neg hne]
  exact h d hd

/-! ## Expressions -/

/-- The cell of an expression keeps its contents when later temporaries change. -/
theorem ExpressionCode.kept {n : Node} {n₀ n₁ : Names} {c : Cell} {e : Emission}
    {ks : List (Nat × UInt16)} (h : ExpressionCode n n₀ c n₁ e ks) {s : Store} {t t' : Nat → UInt16}
    (ht : ∀ k, k ≤ n₁.temps → t' k = t k) : contents s t' (.cell c) = contents s t (.cell c) := by
  cases h with
  | ident _ => rfl
  | intLit _ => exact ht _ (Nat.le_refl _)
  | binary _ _ => exact ht _ (Nat.le_refl _)

/-- **Expressions**: the code leaves the value in the cell, and changes temporaries of its own only. -/
theorem ExpressionCode.run {asm : Assembly} {ss : List Statement} {all ks : List (Nat × UInt16)}
    (h : Linked asm ss) {n : Node} {n₀ n₁ : Names} {c : Cell} {e : Emission}
    (hcode : ExpressionCode n n₀ c n₁ e ks) {s : Store} {v : UInt16} {t : Nat → UInt16} {a : Nat}
    {out : List UInt16} {m : Machine} (hat : At ss a e.body) (hfits : Fits all n₀.temps n₁.temps ks)
    (hv : n.value? s.vars = some v) (ht : Holds all t) (hm : Stands ss s t a out m) :
    ∃ m' t', Reaches asm.records m m' ∧ Stands ss s t' (a + words e.body) out m' ∧ Holds all t' ∧
      contents s t' (.cell c) = v ∧ ∀ k, k ≤ n₀.temps ∨ n₁.temps < k → t' k = t k := by
  -- for every place and machine: the right operand starts where the left one ends
  induction hcode generalizing v t a m with
  | ident _ => exact ⟨m, t, .refl m, hm, ht, Option.some.inj hv, fun _ _ => rfl⟩
  | @intLit x w n₀ hw =>
    obtain rfl : w = v := Option.some.inj (hw.symm.trans hv)
    have hmem := ((hfits (n₀.temps + 1, w)).1 (List.mem_singleton_self _)).1
    exact ⟨m, t, .refl m, hm, ht, ht _ hmem, fun _ _ => rfl⟩
  | @binary op left right n₀ n₁ n₂ l r x y ks ls hl hr ihl ihr =>
    -- the operands have values, and the operator is applied to them
    obtain ⟨v₁, v₂, hv₁, hv₂, rfl⟩ : ∃ v₁ v₂, left.value? s.vars = some v₁ ∧
        right.value? s.vars = some v₂ ∧ v = op.apply v₁ v₂ := by
      rw [Node.value?] at hv
      split at hv
      · rename_i v₁ v₂ h₁ h₂
        exact ⟨v₁, v₂, h₁, h₂, (Option.some.inj hv).symm⟩
      · cases hv
    have hat : At ss a (x.body ++ (y.body ++ (Code.load0 l ++ (Code.load3 r ++
      (operatorCode op (n₂.labels + 1) ++ Code.store (.temp (n₂.temps + 1))))))) := hat
    have hk := hl.within
    have hk' := hr.within
    obtain ⟨m₁, t₁, hreach₁, hm₁, ht₁, hc₁, hframe₁⟩ :=
      ihl hat.left (hfits.left hk hk' (Nat.le_succ _)) hv₁ ht hm
    obtain ⟨m₂, t₂, hreach₂, hm₂, ht₂, hc₂, hframe₂⟩ :=
      ihr hat.right.left (hfits.right hk hk' (Nat.le_succ _)) hv₂ ht₁ hm₁
    -- the left operand is loaded after the right one has run: its temporary is older
    have hc₁' : contents s t₂ (.cell l) = v₁ := by
      rw [hl.kept fun k hle => hframe₂ k (.inl hle), hc₁]
    have hrest := hat.right.right
    obtain ⟨m₃, hreach₃, hm₃, h0, -⟩ := h.load0 hrest.left hm₂
    obtain ⟨m₄, hreach₄, hm₄, h3, h0'⟩ := h.load3 hrest.right.left hm₃
    obtain ⟨m₅, hreach₅, hm₅, hvalue⟩ := h.operator hrest.right.right.left hm₄
    rw [h0', h0, h3, hc₁', hc₂] at hvalue
    obtain ⟨m₆, hreach₆, hm₆⟩ := h.store hrest.right.right.right hm₅
      (puts_temp s t₂ m₅.r0 (n₂.temps + 1))
    refine ⟨m₆, setTemp t₂ (n₂.temps + 1) m₅.r0,
      hreach₁.trans (hreach₂.trans (hreach₃.trans (hreach₄.trans (hreach₅.trans hreach₆)))),
      hm₆.at_eq ?_, ?_, ?_, ?_⟩
    · simp
      omega
    · exact ht₂.setTemp hfits (hk.append hk')
    · show (if n₂.temps + 1 = n₂.temps + 1 then m₅.r0 else _) = _
      rw [if_pos rfl, hvalue]
    · intro k hout
      have hout : k ≤ n₀.temps ∨ n₂.temps + 1 < k := hout
      have hle := hk.1
      have hle' := hk'.1
      show (if k = n₂.temps + 1 then m₅.r0 else t₂ k) = t k
      rw [if_neg (by omega), hframe₂ k (by omega), hframe₁ k (by omega)]

end Minicore
