/-
  LANGUAGE — the lines that a catalog takes, those that it refuses, and all others.

  Problem: a line is classified by looking for its mnemonic, reading operand after operand, and trying the
  patterns.  What comes out should be told by a GRAMMAR: by how a line is put together, and not by the
  order in which a reader looks at it.

  1. **Specification** — `Accepts`: the line is a pattern's mnemonic with one token per slot, each spelled
     as its slot demands.  `Refuses`: the line is some pattern's mnemonic with tokens, and the first of
     them that is not well-formed is a number that fits no word.

  2. **Tokens** — the reader goes through the tokens from left to right; what it returns is told by where
     it stops (`spelled_of_readOperands`, `readOperands_eq_error_iff`).

  3. **Crux** — a line is accepted through at most ONE pattern, so the answer is that pattern's, and a
     line is not ambiguous; a line that is neither accepted nor refused is no instruction
     (`language_of_catalog`).
-/
import Minicore.Proofs.Machine.Overlap
import Minicore.Proofs.Machine.Spelling

namespace Minicore

namespace Catalog

/-! ## The grammar -/

/-- The line is an instruction of a pattern with that opcode: the mnemonic, and one token per slot, each
    spelled as the slot demands when the blanks around it are removed.  The tokens stand with their
    parameters; the parameter of the line is the first of them. -/
def Accepts (ps : List Pattern) (line : Text) (op : Opcode) (param : Option Param) : Prop :=
  ∃ p ∈ ps, p.op = op ∧ ∃ operands : List (Text × Option Param),
    p.mnemonic.Spells line.trim (operands.map Prod.fst) ∧
    List.Forall₂ (fun (s : Slot) d => s.Spelled d.1.trim d.2) p.slots operands ∧
    param = operands.findSome? Prod.snd

/-- The line is the mnemonic of some pattern with tokens, and of the tokens, blanks around them removed,
    the first that is not well-formed is that number behind a `#`, which is no literal of 16 bits. -/
def Refuses (ps : List Pattern) (line number : Text) : Prop :=
  ∃ p ∈ ps, ∃ before token after, p.mnemonic.Spells line.trim (before ++ token :: after) ∧
    (∀ t ∈ before, WellFormed t.trim) ∧ Oversized token.trim number

/-! ## Reading the tokens -/

/-- What is spelled as a slot demands is an operand of that slot. -/
theorem exists_operand {s : Slot} {t : Text} {q : Option Param} (h : s.Spelled t q) :
    ∃ o : Operand, Operand.read t = .ok (some o) ∧ o.slot = s ∧ o.param? = q := by
  have hoperand : ∃ o : Operand, o.slot = s ∧ o.param? = q := by
    cases h with
    | register r => exact ⟨.register r, rfl, rfl⟩
    | indirect r _ _ => exact ⟨.indirect r, rfl, rfl⟩
    | literal _ _ => exact ⟨.value (.literal _), rfl, rfl⟩
    | address _ => exact ⟨.value (.symbol _), rfl, rfl⟩
    | label _ => exact ⟨.bare _, rfl, rfl⟩
  obtain ⟨o, rfl, rfl⟩ := hoperand
  exact ⟨o, Operand.read_eq_some_iff.2 h, rfl, rfl⟩

theorem wellFormed_iff {t : Text} : WellFormed t ↔ ∃ o, Operand.read t = .ok (some o) := by
  constructor
  · rintro ⟨s, q, h⟩
    obtain ⟨o, hread, -⟩ := exists_operand h
    exact ⟨o, hread⟩
  · rintro ⟨o, h⟩
    exact ⟨o.slot, o.param?, Operand.read_eq_some_iff.1 h⟩

/-- Behind an operand the reader goes on. -/
theorem readOperands_cons {token : Text} {o : Operand} (h : Operand.read token = .ok (some o))
    (rest : List Text) :
    readOperands (token :: rest) = (readOperands rest).map (Option.map (o :: ·)) := by
  simp only [readOperands, h]
  cases readOperands rest with
  | error number => rfl
  | ok found => cases found <;> rfl

/-- **Tokens that are spelled** as slots demand are read as operands of these slots. -/
theorem readOperands_of_spelled {slots : List Slot} {operands : List (Text × Option Param)}
    (h : List.Forall₂ (fun (s : Slot) d => s.Spelled d.1.trim d.2) slots operands) :
    ∃ os : List Operand, readOperands ((operands.map Prod.fst).map Text.trim) = .ok (some os) ∧
      slots = os.map Operand.slot ∧
      os.findSome? Operand.param? = operands.findSome? Prod.snd := by
  induction h with
  | nil => exact ⟨[], rfl, rfl, rfl⟩
  | cons hspelled _ ih =>
    obtain ⟨o, hread, rfl, hparam⟩ := exists_operand hspelled
    obtain ⟨os, hreads, rfl, hparams⟩ := ih
    refine ⟨o :: os, ?_, rfl, ?_⟩
    · rw [List.map_cons, List.map_cons, readOperands_cons hread, hreads]
      rfl
    · rw [List.findSome?_cons, List.findSome?_cons, hparam, hparams]

/-- Conversely, what is read as operands is spelled as their slots demand. -/
theorem spelled_of_readOperands {tokens : List Text} {os : List Operand}
    (h : readOperands (tokens.map Text.trim) = .ok (some os)) :
    ∃ operands : List (Text × Option Param), operands.map Prod.fst = tokens ∧
      List.Forall₂ (fun (s : Slot) d => s.Spelled d.1.trim d.2) (os.map Operand.slot) operands ∧
      os.findSome? Operand.param? = operands.findSome? Prod.snd := by
  induction tokens generalizing os with
  | nil =>
    obtain rfl : [] = os := Option.some.inj (Except.ok.inj h)
    exact ⟨[], rfl, .nil, rfl⟩
  | cons token tokens ih =>
    rw [List.map_cons] at h
    cases hread : Operand.read token.trim with
    | error number => simp only [readOperands, hread] at h; cases h
    | ok found =>
      cases found with
      | none => simp only [readOperands, hread] at h; cases h
      | some o =>
        rw [readOperands_cons hread] at h
        cases hrest : readOperands (tokens.map Text.trim) with
        | error number => rw [hrest] at h; cases h
        | ok found =>
          cases found with
          | none => rw [hrest] at h; cases h
          | some rest =>
            rw [hrest] at h
            obtain rfl : o :: rest = os := Option.some.inj (Except.ok.inj h)
            obtain ⟨operands, htokens, hspelled, hparams⟩ := ih hrest
            refine ⟨(token, o.param?) :: operands, by rw [List.map_cons, htokens],
              .cons (Operand.read_eq_some_iff.1 hread) hspelled, ?_⟩
            rw [List.findSome?_cons, List.findSome?_cons, hparams]

/-- **The first token that is no operand** decides: the reader refuses a number that fits no word. -/
theorem readOperands_eq_error_iff {tokens : List Text} {number : Text} :
    readOperands (tokens.map Text.trim) = .error number ↔
      ∃ before token after, tokens = before ++ token :: after ∧
        (∀ t ∈ before, WellFormed t.trim) ∧ Oversized token.trim number := by
  constructor
  · intro h
    induction tokens with
    | nil => cases h
    | cons token tokens ih =>
      rw [List.map_cons] at h
      cases hread : Operand.read token.trim with
      | error v =>
        simp only [readOperands, hread] at h
        obtain rfl := Except.error.inj h
        exact ⟨[], token, tokens, rfl, List.forall_mem_nil _, Operand.read_eq_error_iff.1 hread⟩
      | ok found =>
        cases found with
        | none => simp only [readOperands, hread] at h; cases h
        | some o =>
          rw [readOperands_cons hread] at h
          cases hrest : readOperands (tokens.map Text.trim) with
          | ok found => rw [hrest] at h; cases h
          | error v =>
            rw [hrest] at h
            obtain rfl := Except.error.inj h
            obtain ⟨before, bad, after, rfl, hbefore, hbad⟩ := ih hrest
            exact ⟨token :: before, bad, after, rfl,
              List.forall_mem_cons.2 ⟨wellFormed_iff.2 ⟨o, hread⟩, hbefore⟩, hbad⟩
  · rintro ⟨before, token, after, rfl, hbefore, hbad⟩
    induction before with
    | nil =>
      rw [List.nil_append, List.map_cons, readOperands, Operand.read_eq_error_iff.2 hbad]
    | cons t before ih =>
      obtain ⟨ht, hbefore⟩ := List.forall_mem_cons.1 hbefore
      obtain ⟨o, hread⟩ := wellFormed_iff.1 ht
      rw [List.cons_append, List.map_cons, readOperands_cons hread, ih hbefore]
      rfl

/-! ## Lines -/

section Lines

variable {c : Catalog} {line : Text}

/-- **Accepted lines** are answered with the pattern's opcode and the first parameter. -/
theorem classify_eq_some_iff_accepts {op : Opcode} {param : Option Param} :
    c.classify line = .ok (some ⟨op, param⟩) ↔ Accepts c.patterns line op param := by
  constructor
  · intro h
    obtain ⟨p, hp, os, hhead, hreads, hslots, hop, hparam⟩ := exists_of_classify h
    obtain ⟨tokens, hspells⟩ := Mnemonic.exists_spells hhead
    obtain ⟨-, htokens⟩ := hspells.tokens_eq (Text.trimEnd_trimEnd _)
    rw [htokens] at hreads
    obtain ⟨operands, rfl, hspelled, hparams⟩ := spelled_of_readOperands hreads
    exact ⟨p, hp, hop, operands, hspells, hslots ▸ hspelled, hparam.symm.trans hparams⟩
  · rintro ⟨p, hp, rfl, operands, hspells, hspelled, rfl⟩
    obtain ⟨hhead, htokens⟩ := hspells.tokens_eq (Text.trimEnd_trimEnd _)
    obtain ⟨os, hreads, hslots, hparams⟩ := readOperands_of_spelled hspelled
    rw [← htokens] at hreads
    obtain ⟨param, hanswer⟩ := classify_eq_some_iff.2
      ⟨p, hp, ⟨hhead, fits_iff_readOperands.2 ⟨os, hreads, hslots⟩⟩, rfl⟩
    -- the answer has the parameter of the operands that were read, and they are read in one way
    obtain ⟨q, -, os', -, hreads', -, -, hparam⟩ := exists_of_classify hanswer
    obtain rfl : os = os' := Option.some.inj (Except.ok.inj (hreads.symm.trans hreads'))
    rw [hanswer, ← hparams, hparam]

/-- A line is refused for a number exactly when its mnemonic is in the table and its tokens are. -/
theorem classify_eq_error_iff {number : Text} :
    c.classify line = .error (.invalidLiteral number) ↔
      ∃ p ∈ c.patterns, line.trim.headAndRest.1 = p.mnemonic.name ∧
        readOperands (tokens line.trim.headAndRest.2) = .error number := by
  constructor
  · intro h
    simp only [classify] at h
    split at h
    · cases h
    · rename_i m hname
      split at h
      · cases h
      · rename_i ps hps
        obtain ⟨p, hp⟩ := List.exists_mem_of_ne_nil (c.candidates m) hps
        obtain ⟨hpattern, hm⟩ := List.mem_filter.1 hp
        split at h
        · rename_i v hreads
          obtain rfl : v = number := Fault.invalidLiteral.inj (Except.error.inj h)
          refine ⟨p, hpattern, ?_, hreads⟩
          rw [Mnemonic.ofName?_eq_some_iff.1 hname, beq_iff_eq.1 hm]
        · cases h
        · rename_i os _
          cases hmatches : (c.candidates m).filter fun p => p.accepts os with
          | nil => rw [hmatches] at h; cases h
          | cons q rest => rw [hmatches] at h; cases rest <;> cases h
  · rintro ⟨p, hp, hhead, hreads⟩
    have hcandidate : p ∈ c.candidates p.mnemonic := List.mem_filter.2 ⟨hp, beq_iff_eq.2 rfl⟩
    simp only [classify, Mnemonic.ofName?_eq_some_iff.2 hhead, hreads]
    split
    · rename_i hnil
      rw [hnil] at hcandidate
      cases hcandidate
    · rfl

/-- **Refused lines** are answered with the number that fits no word. -/
theorem classify_eq_error_iff_refuses {e : Fault} :
    c.classify line = .error e ↔ ∃ number, e = .invalidLiteral number ∧ Refuses c.patterns line number := by
  have hrefuses (number : Text) : Refuses c.patterns line number ↔
      c.classify line = .error (.invalidLiteral number) := by
    rw [classify_eq_error_iff]
    constructor
    · rintro ⟨p, hp, before, token, after, hspells, hbefore, hbad⟩
      obtain ⟨hhead, htokens⟩ := hspells.tokens_eq (Text.trimEnd_trimEnd _)
      rw [htokens]
      exact ⟨p, hp, hhead, readOperands_eq_error_iff.2 ⟨before, token, after, rfl, hbefore, hbad⟩⟩
    · rintro ⟨p, hp, hhead, hreads⟩
      obtain ⟨tokens, hspells⟩ := Mnemonic.exists_spells hhead
      obtain ⟨-, htokens⟩ := hspells.tokens_eq (Text.trimEnd_trimEnd _)
      rw [htokens] at hreads
      obtain ⟨before, token, after, rfl, hbefore, hbad⟩ := readOperands_eq_error_iff.1 hreads
      exact ⟨p, hp, before, token, after, hspells, hbefore, hbad⟩
  constructor
  · intro h
    cases e with
    | invalidLiteral number => exact ⟨number, rfl, (hrefuses number).2 h⟩
    | ambiguous other ops => exact absurd h (c.classify_ne_ambiguous line other ops)
  · rintro ⟨number, rfl, h⟩
    exact (hrefuses number).1 h

end Lines

/-- **The language of a catalog.**  For every table that makes a catalog and every line: the answer is
    an opcode and a parameter exactly when the line is an instruction of a pattern with that opcode and
    has that parameter; it is a fault exactly when the line starts with the mnemonic of a pattern and
    the first token that is not well-formed is a number that fits no word, and then the fault has that
    number; and all other lines are no instructions. -/
theorem language_of_catalog {ps : List Pattern} {c : Catalog} (h : ofPatterns ps = .ok c) (line : Text) :
    (∀ op param, c.classify line = .ok (some ⟨op, param⟩) ↔ Accepts ps line op param) ∧
      (∀ e, c.classify line = .error e ↔
        ∃ number, e = .invalidLiteral number ∧ Refuses ps line number) ∧
      (c.classify line = .ok none ↔
        (∀ op param, ¬ Accepts ps line op param) ∧ ∀ number, ¬ Refuses ps line number) := by
  have haccepts (op : Opcode) (param : Option Param) :=
    @classify_eq_some_iff_accepts c line op param
  have hrefuses (e : Fault) := @classify_eq_error_iff_refuses c line e
  rw [patterns_of_ofPatterns h] at haccepts hrefuses
  refine ⟨haccepts, hrefuses, ?_, ?_⟩
  · intro hnone
    refine ⟨fun op param hline => ?_, fun number hline => ?_⟩
    · rw [(haccepts op param).2 hline] at hnone
      cases hnone
    · rw [(hrefuses _).2 ⟨number, rfl, hline⟩] at hnone
      cases hnone
  · rintro ⟨hnot, hnot'⟩
    cases hanswer : c.classify line with
    | error e =>
      obtain ⟨number, -, hline⟩ := (hrefuses e).1 hanswer
      exact absurd hline (hnot' number)
    | ok found =>
      cases found with
      | none => rfl
      | some answer => exact absurd ((haccepts answer.op answer.param).1 hanswer) (hnot _ _)

/-- With the shapes of the machine: blanks of any kind around the tokens; a number that fits no word, where
    no shape would fit either; and a comma too many in front of such a number. -/
theorem language_of_standard :
    ofPatterns standardPatterns = .ok standard ∧
      Accepts standardPatterns " ADD\u2003R0 , R0,\u00A0#0x4 ".toList .addi (some (.literal 4)) ∧
      Refuses standardPatterns "B R0, #0x12345".toList "0x12345".toList ∧
      ∀ number, ¬ Refuses standardPatterns "MOV R1,, #99999".toList number := by
  have hcatalog : ofPatterns standardPatterns = .ok standard := rfl
  have haccepted := (language_of_catalog hcatalog " ADD\u2003R0 , R0,\u00A0#0x4 ".toList).1 .addi
    (some (.literal 4))
  have hrefused := (language_of_catalog hcatalog "B R0, #0x12345".toList).2.1
    (.invalidLiteral "0x12345".toList)
  have hnone := (language_of_catalog hcatalog "MOV R1,, #99999".toList).2.2
  obtain ⟨number, hnumber, hline⟩ := hrefused.1 rfl
  obtain rfl := Fault.invalidLiteral.inj hnumber
  exact ⟨hcatalog, haccepted.1 rfl, hline, (hnone.1 rfl).2⟩

end Catalog

end Minicore
