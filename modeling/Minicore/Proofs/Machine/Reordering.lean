/-
  REORDERING — tables with the same patterns in another order.

  Problem: a catalog is a table, and whoever makes one writes its rows in SOME order.  A line must not
  mean one thing in one order and another in the other, and a row that is added must not change what the
  rows before it recognise.

  1. **Crux** — what a catalog makes of a line is told by the grammar of its patterns, and the grammar
     asks for `∃ p ∈ ps`: it knows WHICH patterns there are and not where they stand
     (`accepts_mono`, `refuses_mono`).

  2. **Being let through** — a table is let through when no two of its patterns are alike, and being
     alike is symmetric, so every order of an accepted table is accepted (`exists_ofPatterns_of_perm`).

  3. **Index** — the patterns of one mnemonic can be found without going through the table:
     `index` notes for each mnemonic the positions of its patterns, in table order, and these are the
     candidates (`candidates_eq_index`).
-/
import Minicore.Proofs.Machine.Language
import Minicore.Proofs.OrderedMap

namespace Minicore

namespace Pattern

theorem like_symm {p q : Pattern} (h : p.like q = true) : q.like p = true := by
  obtain ⟨hmnemonic, hslots⟩ := like_iff.1 h
  exact like_iff.2 ⟨hmnemonic.symm, hslots.symm⟩

end Pattern

namespace Catalog

variable {ps qs : List Pattern} {c d : Catalog} {line : Text}

/-! ## More patterns -/

theorem accepts_mono (hsub : ps ⊆ qs) {op : Opcode} {param : Option Param}
    (h : Accepts ps line op param) : Accepts qs line op param := by
  obtain ⟨p, hp, hline⟩ := h
  exact ⟨p, hsub hp, hline⟩

theorem refuses_mono (hsub : ps ⊆ qs) {number : Text} (h : Refuses ps line number) :
    Refuses qs line number := by
  obtain ⟨p, hp, hline⟩ := h
  exact ⟨p, hsub hp, hline⟩

/-- What is recognised with some patterns is recognised with more, as the same instruction. -/
theorem classify_of_subset (hsub : c.patterns ⊆ d.patterns) {op : Opcode} {param : Option Param}
    (h : c.classify line = .ok (some ⟨op, param⟩)) : d.classify line = .ok (some ⟨op, param⟩) := by
  apply classify_eq_some_iff_accepts.2
  exact accepts_mono hsub (classify_eq_some_iff_accepts.1 h)

/-- What is refused with some patterns is refused with more, for the same number. -/
theorem classify_error_of_subset (hsub : c.patterns ⊆ d.patterns) {e : Fault}
    (h : c.classify line = .error e) : d.classify line = .error e := by
  obtain ⟨number, he, hrefuses⟩ := classify_eq_error_iff_refuses.1 h
  apply classify_eq_error_iff_refuses.2
  exact ⟨number, he, refuses_mono hsub hrefuses⟩

/-- **The same patterns**: two catalogs that have them give the same answers. -/
theorem classify_of_same (hcd : c.patterns ⊆ d.patterns) (hdc : d.patterns ⊆ c.patterns)
    (line : Text) : d.classify line = c.classify line := by
  cases hc : c.classify line with
  | error e => exact classify_error_of_subset hcd hc
  | ok found =>
    cases found with
    | some answer => exact classify_of_subset hcd hc
    | none =>
      -- an answer of the other catalog would be one of this catalog
      cases hd : d.classify line with
      | error e =>
        have hother := classify_error_of_subset hdc hd
        rw [hc] at hother
        cases hother
      | ok found =>
        cases found with
        | none => rfl
        | some answer =>
          have hother := classify_of_subset hdc hd
          rw [hc] at hother
          cases hother

/-! ## Another order -/

/-- Every order of a table that makes a catalog makes one. -/
theorem exists_ofPatterns_of_perm (hperm : qs.Perm ps) (h : ofPatterns ps = .ok c) :
    ∃ d, ofPatterns qs = .ok d := by
  have hnone : firstOverlap ps = none := by
    have hpatterns := patterns_of_ofPatterns h
    rw [← hpatterns]
    exact c.noOverlap
  have hsymm : ∀ p q : Pattern, p.like q = false → q.like p = false := by
    intro p q hpq
    rw [Bool.eq_false_iff] at hpq ⊢
    intro hqp
    exact hpq (Pattern.like_symm hqp)
  have hother : firstOverlap qs = none := by
    apply firstOverlap_eq_none_iff.2
    exact (hperm.pairwise_iff (hsymm _ _)).2 (firstOverlap_eq_none_iff.1 hnone)
  cases hqs : ofPatterns qs with
  | ok d => exact ⟨d, rfl⟩
  | error o =>
    rw [ofPatterns_eq_error_iff, hother] at hqs
    cases hqs

/-! ## An index by mnemonic -/

/-- For each mnemonic of the table, by its name, the positions of its patterns. -/
def index (ps : List Pattern) : OrderedMap (List Nat) :=
  ps.zipIdx.foldl (fun found entry =>
    found.insert entry.1.mnemonic.name
      ((found.find? entry.1.mnemonic.name).getD [] ++ [entry.2])) OrderedMap.empty

/-- The positions that the index has for a mnemonic are those of its patterns, in table order. -/
theorem find?_index (ps : List Pattern) (m : Mnemonic) :
    ((index ps).find? m.name).getD [] =
      (ps.zipIdx.filter fun entry => entry.1.mnemonic == m).map Prod.snd := by
  -- pattern by pattern, in the order in which they are put in
  unfold index
  generalize ps.zipIdx = entries
  induction entries using List.reverseRecOn with
  | nil => rfl
  | append_singleton entries entry ih =>
    rw [List.foldl_append, List.foldl_cons, List.foldl_nil, OrderedMap.find?_insert,
      List.filter_append, List.map_append, ← ih]
    by_cases hm : entry.1.mnemonic = m
    · have hname : entry.1.mnemonic.name = m.name := by rw [hm]
      rw [if_pos hname, hname]
      simp [hm]
    · have hname : entry.1.mnemonic.name ≠ m.name := by
        intro hsame
        have hfirst := Mnemonic.ofName?_eq_some_iff.2 hsame
        have hsecond := Mnemonic.ofName?_eq_some_iff.2 (rfl : entry.1.mnemonic.name = _)
        exact hm (Option.some.inj (hsecond.symm.trans hfirst))
      rw [if_neg hname]
      simp [hm]

/-- **The index finds the candidates**: the patterns at its positions are those with the mnemonic. -/
theorem candidates_eq_index (c : Catalog) (m : Mnemonic) :
    c.candidates m =
      (((index c.patterns).find? m.name).getD []).filterMap fun i => c.patterns[i]? := by
  have hget : ∀ entry ∈ c.patterns.zipIdx.filter (fun entry => entry.1.mnemonic == m),
      c.patterns[entry.2]? = some entry.1 := by
    intro entry hentry
    exact List.mem_zipIdx_iff_getElem?.1 (List.mem_filter.1 hentry).1
  rw [find?_index, List.filterMap_map]
  calc c.patterns.filter (fun p => p.mnemonic == m)
      = (c.patterns.zipIdx.map Prod.fst).filter (fun p => p.mnemonic == m) := by
        rw [List.zipIdx_map_fst]
    _ = (c.patterns.zipIdx.filter fun entry => entry.1.mnemonic == m).map Prod.fst := by
        rw [List.filter_map]
        rfl
    _ = (c.patterns.zipIdx.filter fun entry => entry.1.mnemonic == m).filterMap
          fun entry => c.patterns[entry.2]? := by
        rw [← List.filterMap_eq_map]
        exact (List.filterMap_congr hget).symm

/-! ## The whole -/

/-- **Order does not matter.**  For every table that makes a catalog, every other order of its patterns
    makes a catalog too, and the two give the same answer for every line; a catalog with at least these
    patterns recognises every line that this catalog recognises, with the same opcode and parameter; and
    the patterns that are tried on a mnemonic are those which an index by mnemonic has for it. -/
theorem classification_of_reordered (h : ofPatterns ps = .ok c) :
    (∀ qs, qs.Perm ps → ∃ d, ofPatterns qs = .ok d ∧ ∀ line, d.classify line = c.classify line) ∧
      (∀ qs d, ofPatterns qs = .ok d → ps ⊆ qs → ∀ line op param,
        c.classify line = .ok (some ⟨op, param⟩) → d.classify line = .ok (some ⟨op, param⟩)) ∧
      ∀ m, c.candidates m = (((index ps).find? m.name).getD []).filterMap fun i => ps[i]? := by
  have hpatterns : c.patterns = ps := patterns_of_ofPatterns h
  refine ⟨?_, ?_, ?_⟩
  · intro qs hperm
    obtain ⟨d, hd⟩ := exists_ofPatterns_of_perm hperm h
    have hother : d.patterns = qs := patterns_of_ofPatterns hd
    refine ⟨d, hd, ?_⟩
    intro line
    apply classify_of_same
    · rw [hpatterns, hother]
      exact hperm.symm.subset
    · rw [hpatterns, hother]
      exact hperm.subset
  · intro qs d hd hsub line op param hline
    have hother : d.patterns = qs := patterns_of_ofPatterns hd
    apply classify_of_subset _ hline
    rw [hpatterns, hother]
    exact hsub
  · intro m
    rw [candidates_eq_index, hpatterns]

/-- The branches of the machine alone. -/
def branchPatterns : List Pattern :=
  [⟨.bne, .bne, [.label]⟩, ⟨.b, .b, [.label]⟩, ⟨.beq, .beq, [.label]⟩, ⟨.bcc, .bcc, [.label]⟩]

/-- The branches from the last to the first answer alike, and all shapes of the machine recognise what
    the branches alone recognise. -/
theorem classification_of_branches :
    (∃ c, ofPatterns branchPatterns = .ok c ∧
      (∃ d, ofPatterns branchPatterns.reverse = .ok d ∧ ∀ line, d.classify line = c.classify line) ∧
      c.classify " BNE\u2003else_3".toList = .ok (some ⟨.bne, some (.symbol "else_3".toList)⟩) ∧
      (c.candidates .beq).map Pattern.op = [.beq]) ∧
    branchPatterns ⊆ standardPatterns ∧
    standard.classify " BNE\u2003else_3".toList = .ok (some ⟨.bne, some (.symbol "else_3".toList)⟩) := by
  have hcatalog : ofPatterns branchPatterns = .ok ⟨branchPatterns, by decide⟩ := rfl
  obtain ⟨hperm, hmore, hindex⟩ := classification_of_reordered hcatalog
  have hsub : branchPatterns ⊆ standardPatterns := by decide
  refine ⟨⟨_, hcatalog, hperm _ (List.reverse_perm _), rfl, ?_⟩, hsub, ?_⟩
  · rw [hindex .beq]
    rfl
  · exact hmore standardPatterns standard rfl hsub _ _ _ rfl

end Catalog

end Minicore
