/-
  OVERLAP — the check that a table passes, and the lines it speaks of.

  Problem: a table is refused when two of its patterns have one mnemonic and equal slots.  That
  compares SHAPES; what a reader of source lines cares about is whether some LINE is an instance of
  both.  The two are the same question, and the check answers it for every table.

  1. **Specification** — `Pattern.Takes`, said of a line and not of a list of operands: the first word
     is the mnemonic, there are as many operand tokens as slots, every token fits the slot at its
     position.  `Clash ps i j`: one line is taken by the patterns at both positions.

  2. **Crux** — `exists_line_iff_like`.  From left to right, a token is read in ONE way, so the
     operands of the line determine the slots of whatever takes it.  From right to left, a pattern's
     own written form is a line that it takes (`Pattern.takes_text`), and a pattern like it takes that
     line too.

  3. **The reported pair** — `firstOverlap` walks the table with one pattern in hand and compares it
     with those behind it, so the pair it finds is the first by its first position, then by its second
     (`exists_first_of_firstOverlap`).
-/
import Minicore.Proofs.Machine.Matching
import Mathlib.Data.List.Forall2

namespace Minicore

/-! ## Lines that a pattern takes -/

/-- The token reads as an operand that fits the slot. -/
def Slot.Fits (slot : Slot) (token : Text) : Prop :=
  ∃ o, Operand.read token = .ok (some o) ∧ slot.accepts o = true

/-- The line is an instance of the pattern: its first word is the mnemonic, and its operand tokens fit
    the slots one by one. -/
def Pattern.Takes (p : Pattern) (line : Text) : Prop :=
  line.trim.headAndRest.1 = p.mnemonic.name ∧
    List.Forall₂ Slot.Fits p.slots (Catalog.tokens line.trim.headAndRest.2)

/-- Some line is an instance of the patterns at both positions. -/
def Clash (ps : List Pattern) (i j : Nat) : Prop :=
  ∃ p q line, ps[i]? = some p ∧ ps[j]? = some q ∧ p.Takes line ∧ q.Takes line

/-- Tokens fit the slots exactly when they read as operands of just those slots. -/
theorem fits_iff_readOperands {slots : List Slot} {tokens : List Text} :
    List.Forall₂ Slot.Fits slots tokens ↔
      ∃ operands, Catalog.readOperands tokens = .ok (some operands) ∧
        slots = operands.map Operand.slot := by
  constructor
  · intro h
    induction h with
    | nil => exact ⟨[], rfl, rfl⟩
    | cons hfit _ ih =>
      obtain ⟨o, hread, haccepts⟩ := hfit
      obtain ⟨operands, hreads, rfl⟩ := ih
      rw [Slot.accepts_eq, beq_iff_eq] at haccepts
      exact ⟨o :: operands, by simp only [Catalog.readOperands, hread, hreads], by
        rw [List.map_cons, haccepts]⟩
  · rintro ⟨operands, hreads, rfl⟩
    -- the reader goes on only behind a token that is an operand
    induction tokens generalizing operands with
    | nil =>
      obtain rfl : [] = operands := by simpa [Catalog.readOperands] using hreads
      exact .nil
    | cons token tokens ih =>
      simp only [Catalog.readOperands] at hreads
      split at hreads
      · cases hreads
      · cases hreads
      · rename_i o hread
        split at hreads
        · cases hreads
        · cases hreads
        · rename_i rest hrest
          obtain rfl : o :: rest = operands := by simpa using hreads
          refine .cons ⟨o, hread, ?_⟩ (ih rest hrest)
          rw [Slot.accepts_eq, beq_iff_eq]

namespace Pattern

variable {p q : Pattern} {line : Text}

theorem like_iff : p.like q = true ↔ p.mnemonic = q.mnemonic ∧ p.slots = q.slots := by
  simp [like]

/-- What stands in a line decides mnemonic and slots of every pattern that takes it. -/
theorem like_of_takes (hp : p.Takes line) (hq : q.Takes line) : p.like q = true := by
  obtain ⟨hmnemonic, hfits⟩ := hp
  obtain ⟨hmnemonic', hfits'⟩ := hq
  obtain ⟨operands, hreads, hslots⟩ := fits_iff_readOperands.1 hfits
  obtain ⟨operands', hreads', hslots'⟩ := fits_iff_readOperands.1 hfits'
  have hnames : Mnemonic.ofName? p.mnemonic.name = some q.mnemonic :=
    Mnemonic.ofName?_eq_some_iff.2 (hmnemonic.symm.trans hmnemonic')
  have hsame : p.mnemonic = q.mnemonic :=
    Option.some.inj ((Mnemonic.ofName?_eq_some_iff.2 rfl).symm.trans hnames)
  obtain rfl : operands = operands' := by simpa [hreads] using hreads'
  exact like_iff.2 ⟨hsame, hslots.trans hslots'.symm⟩

theorem takes_of_like (h : p.like q = true) (hp : p.Takes line) : q.Takes line := by
  obtain ⟨hmnemonic, hslots⟩ := like_iff.1 h
  rw [Takes, ← hmnemonic, ← hslots]
  exact hp

end Pattern

/-! ## The written form of a pattern -/

/-- A slot as it is written is a token that fits it: `#value` is the address of a name, `label` a bare
    name. -/
theorem Slot.fits_text (s : Slot) : (s.text.solid = true ∧ s.text ≠ []) ∧ s.Fits s.text := by
  cases s with
  | register r => cases r <;> exact ⟨by decide, _, rfl, rfl⟩
  | indirect r => cases r <;> exact ⟨by decide, _, rfl, rfl⟩
  | value => exact ⟨by decide, _, rfl, rfl⟩
  | label => exact ⟨by decide, _, rfl, rfl⟩

namespace Pattern

/-- **Every pattern has a line**: its own written form. -/
theorem takes_text (p : Pattern) : p.Takes p.text := by
  have hname : p.mnemonic.name.solid = true ∧ p.mnemonic.name ≠ [] := by
    cases p.mnemonic <;> decide
  cases hslots : p.slots with
  | nil =>
    have hfree := Text.not_blank_of_solid hname.1
    have htrim : p.mnemonic.name.trim = p.mnemonic.name := (Statement.trim_slotText hname.1).1
    rw [Takes, text, hslots]
    simp only [htrim, Text.headAndRest_of_free hfree]
    exact ⟨trivial, .nil⟩
  | cons s slots =>
    have hparts : ∀ part ∈ p.slots.map Slot.text, part.solid = true ∧ part ≠ [] := by
      intro part hpart
      obtain ⟨slot, -, rfl⟩ := List.mem_map.1 hpart
      exact (Slot.fits_text slot).1
    have hwritten : p.text = [] ++ (p.mnemonic.name ++ ' ' :: Text.join ", " (p.slots.map Slot.text)) := by
      rw [text, hslots, List.nil_append]
    obtain ⟨htrim, hhead⟩ := Statement.parts_of_written (b := []) (by decide) hname.1 hname.2
      (by simp [hslots]) hparts
    rw [Takes, hwritten, htrim, hhead, Statement.tokens_join hparts]
    refine ⟨rfl, List.forall₂_map_right_iff.2 (List.forall₂_same.2 ?_)⟩
    intro slot _
    exact (Slot.fits_text slot).2

/-- **Shapes and lines**: two patterns share a line exactly when they have one mnemonic and equal
    slots. -/
theorem exists_line_iff_like {p q : Pattern} :
    (∃ line, p.Takes line ∧ q.Takes line) ↔ p.like q = true := by
  constructor
  · rintro ⟨line, hp, hq⟩
    exact like_of_takes hp hq
  · intro h
    exact ⟨p.text, p.takes_text, takes_of_like h p.takes_text⟩

end Pattern

/-! ## The pair that is reported -/

theorem clash_iff {ps : List Pattern} {i j : Nat} :
    Clash ps i j ↔ ∃ p q, ps[i]? = some p ∧ ps[j]? = some q ∧ p.like q = true := by
  constructor
  · rintro ⟨p, q, line, hp, hq, htakes⟩
    exact ⟨p, q, hp, hq, Pattern.exists_line_iff_like.1 ⟨line, htakes⟩⟩
  · rintro ⟨p, q, hp, hq, hlike⟩
    obtain ⟨line, htakes⟩ := Pattern.exists_line_iff_like.2 hlike
    exact ⟨p, q, line, hp, hq, htakes⟩

theorem Clash.symm {ps : List Pattern} {i j : Nat} (h : Clash ps i j) : Clash ps j i := by
  obtain ⟨p, q, line, hp, hq, htp, htq⟩ := h
  exact ⟨q, p, line, hq, hp, htq, htp⟩

/-- Behind one more pattern every position moves by one. -/
theorem clash_succ {p : Pattern} {ps : List Pattern} {i j : Nat} :
    Clash (p :: ps) (i + 1) (j + 1) ↔ Clash ps i j := by
  simp only [Clash, List.getElem?_cons_succ]

/-- The overlap found stands at two positions of the table, and no pair of positions with a line in
    common comes before it. -/
theorem exists_first_of_firstOverlap {ps : List Pattern} {o : Overlap} (h : firstOverlap ps = some o) :
    ∃ i j, i < j ∧ ps[i]? = some o.first ∧ ps[j]? = some o.second ∧ Clash ps i j ∧
      ∀ k m, k < m → Clash ps k m → i < k ∨ i = k ∧ j ≤ m := by
  -- along the table: the pattern at its head is compared with all behind it before it is put away
  induction ps with
  | nil => cases h
  | cons p rest ih =>
    rw [firstOverlap] at h
    cases hfind : rest.find? p.like with
    | some q =>
      rw [hfind] at h
      obtain rfl : Overlap.mk p q = o := Option.some.inj h
      obtain ⟨hlike, j, hj, hq, hbefore⟩ := List.find?_eq_some_iff_getElem.1 hfind
      have hget : rest[j]? = some q := by rw [List.getElem?_eq_getElem hj, hq]
      refine ⟨0, j + 1, by omega, rfl, hget, clash_iff.2 ⟨p, q, rfl, hget, hlike⟩, ?_⟩
      intro k m hkm hclash
      rcases Nat.eq_zero_or_pos k with rfl | hk
      · obtain ⟨m, rfl⟩ : ∃ l, m = l + 1 := ⟨m - 1, by omega⟩
        obtain ⟨p', r, hp', hr, hlike'⟩ := clash_iff.1 hclash
        obtain rfl : p = p' := Option.some.inj hp'
        rw [List.getElem?_cons_succ] at hr
        by_cases hlt : m < j
        · obtain ⟨hm, hr⟩ := List.getElem?_eq_some_iff.1 hr
          have hnot := hbefore m hlt
          rw [hr, hlike'] at hnot
          cases hnot
        · right; omega
      · left; omega
    | none =>
      rw [hfind] at h
      obtain ⟨i, j, hij, hfirst, hsecond, hclash, hleast⟩ := ih h
      refine ⟨i + 1, j + 1, by omega, hfirst, hsecond, clash_succ.2 hclash, ?_⟩
      intro k m hkm hother
      obtain ⟨m, rfl⟩ : ∃ l, m = l + 1 := ⟨m - 1, by omega⟩
      rcases Nat.eq_zero_or_pos k with rfl | hk
      -- the head is like nothing behind it
      · obtain ⟨p', r, hp', hr, hlike'⟩ := clash_iff.1 hother
        obtain rfl : p = p' := Option.some.inj hp'
        rw [List.find?_eq_none] at hfind
        exact absurd hlike' (hfind r (List.mem_of_getElem? hr))
      · obtain ⟨k, rfl⟩ : ∃ l, k = l + 1 := ⟨k - 1, by omega⟩
        rcases hleast k m (by omega) (clash_succ.1 hother) with hlt | ⟨heq, hle⟩
        · left; omega
        · right; omega

/-- A table without an overlap has no two positions with a line in common. -/
theorem not_clash_of_firstOverlap {ps : List Pattern} (h : firstOverlap ps = none) {i j : Nat}
    (hij : i ≠ j) : ¬ Clash ps i j := by
  have hpairs := firstOverlap_eq_none_iff.1 h
  have hlt : ∀ i j, i < j → ¬ Clash ps i j := by
    intro i j hij hclash
    obtain ⟨p, q, hp, hq, hlike⟩ := clash_iff.1 hclash
    obtain ⟨hi, rfl⟩ := List.getElem?_eq_some_iff.1 hp
    obtain ⟨hj, rfl⟩ := List.getElem?_eq_some_iff.1 hq
    rw [List.pairwise_iff_getElem.1 hpairs i j hi hj hij] at hlike
    cases hlike
  rcases Nat.lt_or_gt_of_ne hij with h | h
  · exact hlt i j h
  · intro hclash
    exact hlt j i h hclash.symm

namespace Catalog

theorem ofPatterns_eq_error_iff {ps : List Pattern} {o : Overlap} :
    ofPatterns ps = .error o ↔ firstOverlap ps = some o := by
  unfold ofPatterns
  split <;> rename_i h <;> simp [h]

theorem patterns_of_ofPatterns {ps : List Pattern} {c : Catalog} (h : ofPatterns ps = .ok c) :
    c.patterns = ps := by
  unfold ofPatterns at h
  split at h
  · obtain rfl := Except.ok.inj h
    rfl
  · cases h

/-- **What the catalog recognises**: a line is an instruction exactly when some pattern of the table
    takes it, and then that pattern gives the opcode. -/
theorem classify_eq_some_iff {c : Catalog} {line : Text} {op : Opcode} :
    (∃ param, c.classify line = .ok (some ⟨op, param⟩)) ↔
      ∃ p ∈ c.patterns, p.Takes line ∧ p.op = op := by
  constructor
  · rintro ⟨param, h⟩
    obtain ⟨p, hp, operands, hmnemonic, hreads, hslots, hop, -⟩ := exists_of_classify h
    exact ⟨p, hp, ⟨hmnemonic, fits_iff_readOperands.2 ⟨operands, hreads, hslots⟩⟩, hop⟩
  · rintro ⟨p, hp, ⟨hmnemonic, hfits⟩, rfl⟩
    obtain ⟨operands, hreads, hslots⟩ := fits_iff_readOperands.1 hfits
    have hname : Mnemonic.ofName? line.trim.headAndRest.1 = some p.mnemonic :=
      Mnemonic.ofName?_eq_some_iff.2 hmnemonic
    have hcandidate : p ∈ c.candidates p.mnemonic := List.mem_filter.2 ⟨hp, beq_iff_eq.2 rfl⟩
    have haccepts : p.accepts operands = true := by
      rw [Pattern.accepts_eq, hslots]; exact beq_iff_eq.2 rfl
    -- the pattern is among the matches, and there is no second one
    have hone : (c.candidates p.mnemonic).filter (fun q => q.accepts operands) = [p] := by
      have hmem : p ∈ (c.candidates p.mnemonic).filter fun q => q.accepts operands :=
        List.mem_filter.2 ⟨hcandidate, haccepts⟩
      have hlength := c.matches_length_le_one p.mnemonic operands
      match hmatches : (c.candidates p.mnemonic).filter fun q => q.accepts operands with
      | [] => rw [hmatches] at hmem; cases hmem
      | [q] =>
        rw [hmatches] at hmem
        obtain rfl := List.mem_singleton.1 hmem
        exact hmatches
      | _ :: _ :: _ => rw [hmatches] at hlength; simp at hlength
    refine ⟨operands.findSome? Operand.param?, ?_⟩
    simp only [classify, hname, hreads]
    split
    · rename_i hnil
      rw [hnil] at hcandidate
      cases hcandidate
    · rw [hone]; rfl

/-! ## The check -/

/-- **The overlap check**: a table is refused exactly when two positions of it have a line in common;
    the overlap reported is that of the first such pair; and a table that is let through is the catalog
    of just its patterns and finds no line ambiguous. -/
theorem overlap_of_ofPatterns (ps : List Pattern) :
    ((∃ o, ofPatterns ps = .error o) ↔ ∃ i j, i ≠ j ∧ Clash ps i j) ∧
      (∀ o, ofPatterns ps = .error o → ∃ i j, i < j ∧ ps[i]? = some o.first ∧
        ps[j]? = some o.second ∧ Clash ps i j ∧
        ∀ k m, k ≠ m → Clash ps k m → i < k ∨ i = k ∧ j ≤ m) ∧
      ∀ c, ofPatterns ps = .ok c → c.patterns = ps ∧
        ∀ source line ops, c.classify source ≠ .error (.ambiguous line ops) := by
  refine ⟨⟨?_, ?_⟩, ?_, ?_⟩
  · rintro ⟨o, ho⟩
    obtain ⟨i, j, hij, -, -, hclash, -⟩ :=
      exists_first_of_firstOverlap (ofPatterns_eq_error_iff.1 ho)
    exact ⟨i, j, by omega, hclash⟩
  · rintro ⟨i, j, hij, hclash⟩
    cases hfirst : firstOverlap ps with
    | none => exact absurd hclash (not_clash_of_firstOverlap hfirst hij)
    | some o => exact ⟨o, ofPatterns_eq_error_iff.2 hfirst⟩
  · intro o ho
    obtain ⟨i, j, hij, hfirst, hsecond, hclash, hleast⟩ :=
      exists_first_of_firstOverlap (ofPatterns_eq_error_iff.1 ho)
    refine ⟨i, j, hij, hfirst, hsecond, hclash, ?_⟩
    intro k m hkm hother
    rcases Nat.lt_or_gt_of_ne hkm with hlt | hgt
    · exact hleast k m hlt hother
    -- the pair in the other order: its smaller position comes second
    · rcases hleast m k hgt hother.symm with hlt | ⟨heq, hle⟩
      · left; omega
      · left; omega
  · intro c hc
    refine ⟨patterns_of_ofPatterns hc, ?_⟩
    intro source line ops
    exact c.classify_ne_ambiguous source line ops

/-- The shapes of the machine, with a second one for `B label` behind them. -/
def branchTwice : List Pattern := standardPatterns ++ [⟨.wait, .b, [.label]⟩]

/-- The second `B label` clashes with the first, and that pair is reported; the shapes of the machine
    alone make a catalog. -/
theorem overlap_of_branchTwice :
    (∃ i j, i ≠ j ∧ Clash branchTwice i j) ∧
      (∃ i j, i < j ∧ branchTwice[i]? = some ⟨.b, .b, [.label]⟩ ∧
        branchTwice[j]? = some ⟨.wait, .b, [.label]⟩ ∧ Clash branchTwice i j ∧
        ∀ k m, k ≠ m → Clash branchTwice k m → i < k ∨ i = k ∧ j ≤ m) ∧
      standard.patterns = standardPatterns ∧
        ∀ source line ops, standard.classify source ≠ .error (.ambiguous line ops) := by
  have hrefused : ofPatterns branchTwice = .error ⟨⟨.b, .b, [.label]⟩, ⟨.wait, .b, [.label]⟩⟩ :=
    ofPatterns_eq_error_iff.2 (by decide)
  obtain ⟨hiff, hfirst, -⟩ := overlap_of_ofPatterns branchTwice
  exact ⟨hiff.1 ⟨_, hrefused⟩, hfirst _ hrefused,
    (overlap_of_ofPatterns standardPatterns).2.2 standard rfl⟩

end Catalog

end Minicore
