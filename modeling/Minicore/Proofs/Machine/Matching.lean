/-
  MATCHING — at most one shape takes a line.

  Problem: the catalog reports several matches as a fault of its own and never picks one.  That fault
  speaks of the table, not of the line, so no table that was let through may ever cause it.

  1. **Tables** — a table is let through exactly when no two of its patterns are alike
     (`firstOverlap_eq_none_iff`).

  2. **Crux** — the operands determine the slots (`Pattern.accepts_eq`): two patterns of one mnemonic
     that take the same operands are alike, so among the matches there is no second one
     (`Catalog.matches_length_le_one`).

  3. **Answers** — an answer comes from one pattern, and from operands that have just its slots
     (`Catalog.exists_of_classify`).
-/
import Minicore.Proofs.Assembly.Written
import Mathlib.Data.List.Basic

namespace Minicore

/-! ## Tables without overlap -/

/-- A table has no overlap exactly when no pattern is like one behind it. -/
theorem firstOverlap_eq_none_iff {ps : List Pattern} :
    firstOverlap ps = none ↔ ps.Pairwise fun p q => p.like q = false := by
  induction ps with
  | nil => simp [firstOverlap]
  | cons p rest ih =>
    rw [List.pairwise_cons, firstOverlap]
    cases hfind : rest.find? p.like with
    | none =>
      rw [List.find?_eq_none] at hfind
      simp only [ih]
      exact ⟨fun h => ⟨fun q hq => Bool.eq_false_iff.2 (hfind q hq), h⟩, fun h => h.2⟩
    | some q =>
      have hq := List.find?_some hfind
      have hmem := List.mem_of_find?_eq_some hfind
      constructor
      · intro h; cases h
      · intro h
        rw [h.1 q hmem] at hq
        cases hq

namespace Catalog

/-- **One match at most**: no two patterns of a catalog take the same mnemonic and operands. -/
theorem matches_length_le_one (c : Catalog) (m : Mnemonic) (operands : List Operand) :
    ((c.candidates m).filter fun p => p.accepts operands).length ≤ 1 := by
  have hpairs := (firstOverlap_eq_none_iff.1 c.noOverlap).sublist
    ((List.filter_sublist (p := fun p => p.accepts operands) (l := c.candidates m)).trans
      List.filter_sublist)
  have hall : ∀ p ∈ (c.candidates m).filter (fun p => p.accepts operands),
      p.mnemonic = m ∧ p.slots = operands.map Operand.slot := by
    intro p hp
    obtain ⟨hp, haccepts⟩ := List.mem_filter.1 hp
    rw [Pattern.accepts_eq, beq_iff_eq] at haccepts
    exact ⟨beq_iff_eq.1 (List.mem_filter.1 hp).2, haccepts⟩
  cases hmatches : (c.candidates m).filter fun p => p.accepts operands with
  | nil => simp
  | cons p rest =>
    cases rest with
    | nil => simp
    | cons q rest =>
      rw [hmatches] at hpairs hall
      obtain ⟨hp, hpslots⟩ := hall p (by simp)
      obtain ⟨hq, hqslots⟩ := hall q (by simp)
      -- the same mnemonic and the same slots: the two are alike
      have hlike : p.like q = true := by simp [Pattern.like, hp, hq, hpslots, hqslots]
      rw [List.rel_of_pairwise_cons hpairs (by simp)] at hlike
      cases hlike

/-- **What is behind an answer**: a pattern of the table with the line's mnemonic, whose slots are those
    of the line's operands; the answer is its opcode and the first parameter among them. -/
theorem exists_of_classify {c : Catalog} {line : Text} {found : Match}
    (h : c.classify line = .ok (some found)) :
    ∃ p ∈ c.patterns, ∃ operands, line.trim.headAndRest.1 = p.mnemonic.name ∧
      readOperands (tokens line.trim.headAndRest.2) = .ok (some operands) ∧
      p.slots = operands.map Operand.slot ∧ p.op = found.op ∧
      operands.findSome? Operand.param? = found.param := by
  simp only [classify] at h
  split at h
  · cases h
  · rename_i m hname
    split at h
    · cases h
    · split at h
      · cases h
      · cases h
      · rename_i operands hreads
        -- one match only, and it takes the operands
        cases hfilter : (c.candidates m).filter fun p => p.accepts operands with
        | nil => rw [hfilter] at h; cases h
        | cons p rest =>
          have hp : p ∈ (c.candidates m).filter fun p => p.accepts operands := by
            rw [hfilter]
            exact List.mem_cons_self
          obtain ⟨hcandidate, haccepts⟩ := List.mem_filter.1 hp
          obtain ⟨hpattern, hm⟩ := List.mem_filter.1 hcandidate
          rw [Pattern.accepts_eq, beq_iff_eq] at haccepts
          rw [hfilter] at h
          cases rest with
          | nil =>
            obtain rfl : ⟨p.op, operands.findSome? Operand.param?⟩ = found := by
              simpa [decideMatch] using h
            refine ⟨p, hpattern, operands, ?_, hreads, haccepts, rfl, rfl⟩
            rw [Mnemonic.ofName?_eq_some_iff.1 hname, beq_iff_eq.1 hm]
          | cons q rest => cases h

/-- No catalog finds a line ambiguous. -/
theorem classify_ne_ambiguous (c : Catalog) (source line : Text) (ops : List Opcode) :
    c.classify source ≠ .error (.ambiguous line ops) := by
  intro h
  simp only [classify] at h
  split at h
  · cases h
  · rename_i m _
    split at h
    · cases h
    · split at h
      · cases h
      · cases h
      · rename_i operands _
        have hlength := c.matches_length_le_one m operands
        cases hmatches : (c.candidates m).filter fun p => p.accepts operands with
        | nil => rw [hmatches] at h; cases h
        | cons p rest =>
          cases rest with
          | nil => rw [hmatches] at h; cases h
          | cons q rest =>
            rw [hmatches] at hlength
            simp at hlength

end Catalog

end Minicore
