/-
  WRITTEN STATEMENTS — a statement read back from its own text.

  Problem: the generator writes lines and the assembler reads them, and the two were made
  independently: one spells, the other cuts at blanks and commas, looks words up in tables and refuses
  what it cannot place.  A line is understood only if both agree on every part of it.

  1. **Readable** — `Readable s` asks what a statement needs to be understood: names are symbols, and an
     instruction has the parameter that its shape asks for (`Slot.fill`).

  2. **Crux** — the operands of a shape determine its slots (`Pattern.accepts_eq`), and no two shapes
     of a mnemonic have the same slots, so exactly ONE shape takes the operands that were written.

  3. **Spec lemma** — `read_text`: a readable statement, written behind any blanks, reads as itself.
-/
import Minicore.Assembly.Statement
import Minicore.Proofs.Text.Numerals
import Minicore.Proofs.Text.Spacing

namespace Minicore

/-! ## One operand -/

namespace Operand

/-- The slot that takes the operand. -/
def slot : Operand → Slot
  | .register r => .register r
  | .indirect r => .indirect r
  | .value _ => .value
  | .bare _ => .label

end Operand

/-- The operand that a slot is written as, if the parameter is one for it. -/
def Slot.fill (param : Option Param) : Slot → Option Operand
  | .register r => some (.register r)
  | .indirect r => some (.indirect r)
  | .value => param.map .value
  | .label =>
    match param with
    | some (.symbol name) => some (.bare name)
    | _ => none

/-- A parameter that can be written: a number, or a symbol. -/
def Param.writable : Param → Bool
  | .literal _ => true
  | .symbol name => name.isSymbol

theorem Slot.accepts_eq (s : Slot) (o : Operand) : s.accepts o = (s == o.slot) := by
  rw [Bool.eq_iff_iff]
  cases s <;> cases o <;> simp [Slot.accepts, Operand.slot]

theorem Slot.slot_of_fill {param : Option Param} {s : Slot} {o : Operand} (h : s.fill param = some o) :
    o.slot = s := by
  cases s with
  | register r => obtain rfl := Option.some.inj h; rfl
  | indirect r => obtain rfl := Option.some.inj h; rfl
  | value =>
    obtain ⟨q, -, rfl⟩ := Option.map_eq_some_iff.1 h
    rfl
  | label =>
    rcases param with _ | _ | name
    · cases h
    · cases h
    · obtain rfl := Option.some.inj h; rfl

/-- The operands that a shape takes determine its slots. -/
theorem Pattern.accepts_eq (p : Pattern) (operands : List Operand) :
    p.accepts operands = (p.slots == operands.map Operand.slot) := by
  obtain ⟨op, m, slots⟩ := p
  simp only [Pattern.accepts]
  induction slots generalizing operands with
  | nil => cases operands <;> rfl
  | cons s slots ih =>
    cases operands with
    | nil => rfl
    | cons o operands =>
      have hrest := ih operands
      simp only [List.length_cons, List.zip_cons_cons, List.all_cons, List.map_cons,
        List.cons_beq_cons, Slot.accepts_eq] at hrest ⊢
      rw [← hrest, Bool.eq_iff_iff]
      simp only [Bool.and_eq_true, beq_iff_eq, Nat.add_right_cancel_iff]
      exact and_left_comm

/-! ## One operand, read back -/

namespace Operand

/-- A symbol is none of the other spellings. -/
theorem read_symbol {t : Text} (h : t.isSymbol = true) : read t = .ok (some (.bare t)) := by
  have hid := Text.isIdentifier_of_isSymbol h
  have hreg : Register.ofName? t = none := by
    simp only [Text.isSymbol, Text.isReserved, Bool.and_eq_true, Bool.not_eq_true',
      Bool.or_eq_false_iff] at h
    exact Option.isSome_eq_false_iff.1 h.2.1.2 |> Option.isNone_iff_eq_none.1
  cases t with
  | nil => cases hid
  | cons c rest =>
    rw [Text.isIdentifier, Bool.and_eq_true] at hid
    have hbracket : c ≠ '[' := by rintro rfl; exact absurd hid.1 (by decide)
    have hhash : c ≠ '#' := by rintro rfl; exact absurd hid.1 (by decide)
    have hnone : bracketed? (c :: rest) = none := by
      unfold bracketed?
      split
      · rename_i heq; exact absurd (List.cons.inj heq).1 hbracket
      · rfl
    unfold read
    rw [hreg]
    simp only [hnone]
    split
    · rename_i heq; exact absurd (List.cons.inj heq).1 hhash
    · rw [h]; rfl

/-- What stands behind a `#` is told by its first character. -/
theorem read_hash (t : Text) : read ('#' :: t) = readValue t := by
  have hreg : Register.ofName? ('#' :: t) = none := by
    rw [Option.eq_none_iff_forall_not_mem]
    intro r hr
    have hname := Register.ofName?_eq_some_iff.1 hr
    cases r <;> cases hname
  unfold read
  rw [hreg]
  rfl

theorem readValue_symbol {t : Text} (h : t.isSymbol = true) :
    readValue t = .ok (some (.value (.symbol t))) := by
  have hid := Text.isIdentifier_of_isSymbol h
  cases t with
  | nil => cases hid
  | cons c rest =>
    rw [Text.isIdentifier, Bool.and_eq_true] at hid
    have hdigit : c.isDigit = false := Text.not_isDigit_of_startsIdentifier hid.1
    unfold readValue
    simp only [hdigit, h, if_true]
    rfl

theorem readValue_literal (v : UInt16) :
    readValue (Numeral.hexLiteral v.toNat) = .ok (some (.value (.literal v))) := by
  have hread := Numeral.read_hexLiteral v
  have hcons : Numeral.hexLiteral v.toNat = '0' :: 'x' :: Numeral.hex v.toNat := rfl
  rw [hcons] at hread ⊢
  have hdigit : '0'.isDigit = true := by decide
  simp only [readValue, hdigit, if_true, hread]

end Operand

theorem Param.solid_text {p : Param} (h : p.writable = true) : p.text.solid = true := by
  cases p with
  | literal v => exact Numeral.solid_hexLiteral _
  | symbol name => exact Text.solid_of_isSymbol h

namespace Statement

/-- **One slot**: written with the parameter in it, it has no blanks and no commas, is not empty, and
    reads as the operand. -/
theorem slotText_spec {param : Option Param} (hp : ∀ q ∈ param, q.writable = true) {s : Slot}
    {o : Operand} (h : s.fill param = some o) :
    (slotText param s).solid = true ∧ slotText param s ≠ [] ∧
      Operand.read (slotText param s) = .ok (some o) := by
  cases s with
  | register r =>
    obtain rfl := Option.some.inj h
    show r.name.solid = true ∧ r.name ≠ [] ∧ Operand.read r.name = .ok (some (.register r))
    cases r <;> exact ⟨by decide, by decide, rfl⟩
  | indirect r =>
    obtain rfl := Option.some.inj h
    show Text.solid ('[' :: r.name ++ [']']) = true ∧ '[' :: r.name ++ [']'] ≠ [] ∧
      Operand.read ('[' :: r.name ++ [']']) = .ok (some (.indirect r))
    cases r <;> exact ⟨by decide, by decide, rfl⟩
  | value =>
    obtain ⟨q, hq, rfl⟩ := Option.map_eq_some_iff.1 h
    subst hq
    have hw := hp q rfl
    have hsolid : Text.solid ('#' :: q.text) = true := by
      have := Text.solid_append (s := ['#']) (t := q.text)
      rw [List.singleton_append, Param.solid_text hw] at this
      rw [this]
      decide
    refine ⟨hsolid, by simp [slotText], ?_⟩
    show Operand.read ('#' :: q.text) = _
    rw [Operand.read_hash]
    cases q with
    | literal v => exact Operand.readValue_literal v
    | symbol name => exact Operand.readValue_symbol hw
  | label =>
    rcases param with _ | _ | name
    · cases h
    · cases h
    · obtain rfl := Option.some.inj h
      have hw : name.isSymbol = true := hp _ rfl
      exact ⟨Text.solid_of_isSymbol hw,
        Text.ne_nil_of_isSymbol hw, Operand.read_symbol hw⟩

/-! ## The operands of an instruction -/

/-- Behind each other, without what trimming removes. -/
theorem trim_slotText {t : Text} (h : t.solid = true) : t.trim = t ∧ Text.trim (' ' :: t) = t := by
  obtain ⟨hs, he⟩ := Text.trim_of_free (Text.not_blank_of_solid h)
  exact ⟨Text.trim_eq_self hs he, Text.trim_indented (b := [' ']) (by decide) hs he⟩

/-- Solid texts between commas have no blank at either end. -/
theorem trim_join {part : Text} {parts : List Text}
    (h : ∀ q ∈ part :: parts, q.solid = true ∧ q ≠ []) :
    (Text.join ", " (part :: parts)).trimStart = Text.join ", " (part :: parts) ∧
      (Text.join ", " (part :: parts)).trimEnd = Text.join ", " (part :: parts) := by
  constructor
  · obtain ⟨hsolid, hne⟩ := h part List.mem_cons_self
    rw [Text.trimStart_eq_self_iff]
    intro c hc
    have hhead : (Text.join ", " (part :: parts)).head? = part.head? := by
      cases part with
      | nil => exact absurd rfl hne
      | cons d part => cases parts <;> rfl
    rw [hhead] at hc
    exact Text.not_blank_of_solid hsolid c (List.mem_of_mem_head? hc)
  -- whether the text ends with a blank is decided by its last part
  · induction parts generalizing part with
    | nil =>
      obtain ⟨hsolid, -⟩ := h part List.mem_cons_self
      rw [Text.join_singleton]
      exact (Text.trim_of_free (Text.not_blank_of_solid hsolid)).2
    | cons q parts ih =>
      have hq := fun r hr => h r (List.mem_cons_of_mem _ hr)
      have hnot : (Text.join ", " (q :: parts)).blank = false := by
        obtain ⟨hsolid, hne⟩ := hq q List.mem_cons_self
        cases q with
        | nil => exact absurd rfl hne
        | cons c q =>
          have hc := Text.not_blank_of_solid hsolid c List.mem_cons_self
          cases parts <;> simp [Text.blank, Text.join, List.intercalate, List.intersperse, hc]
      rw [Text.join_cons_cons, Text.trimEnd_append, hnot, if_neg (by simp), ih hq]

/-- Operands that are written solid are the tokens of the written list. -/
theorem tokens_join {parts : List Text} (h : ∀ q ∈ parts, q.solid = true ∧ q ≠ []) :
    Catalog.tokens (Text.join ", " parts) = parts := by
  cases parts with
  | nil => rfl
  | cons part parts =>
    have hne : Text.join ", " (part :: parts) ≠ [] := by
      have := (h part List.mem_cons_self).2
      cases parts <;> simp [Text.join, List.intercalate, List.intersperse, this]
    have hcommas : ∀ q ∈ part :: parts, ',' ∉ q :=
      fun q hq => Text.not_comma_of_solid (h q hq).1
    have htrims : parts.map (Text.trim ∘ (' ' :: ·)) = parts.map id :=
      List.map_congr_left fun q hq => (trim_slotText (h q (List.mem_cons_of_mem _ hq)).1).2
    unfold Catalog.tokens
    rw [if_neg (by simpa using hne), Text.fields_join_comma_blank hcommas, List.map_cons,
      (trim_slotText (h part List.mem_cons_self).1).1, List.map_map, htrims, List.map_id]

/-- Every slot of a shape, written and read back. -/
theorem readOperands_slotText {param : Option Param} (hp : ∀ q ∈ param, q.writable = true)
    {slots : List Slot} {operands : List Operand}
    (h : slots.mapM (Slot.fill param) = some operands) :
    (∀ q ∈ slots.map (slotText param), q.solid = true ∧ q ≠ []) ∧
      Catalog.readOperands (slots.map (slotText param)) = .ok (some operands) ∧
      operands.map Operand.slot = slots := by
  -- one operand for each slot: along the slots
  induction slots generalizing operands with
  | nil =>
    obtain rfl : [] = operands := by simpa using h
    exact ⟨by simp, rfl, rfl⟩
  | cons s slots ih =>
    simp only [List.mapM_cons, Option.bind_eq_bind, Option.bind_eq_some_iff, Option.pure_def,
      Option.some.injEq] at h
    obtain ⟨o, ho, rest, hrest, rfl⟩ := h
    obtain ⟨hsolid, hne, hread⟩ := slotText_spec hp ho
    obtain ⟨hall, hreads, hslots⟩ := ih hrest
    refine ⟨?_, ?_, ?_⟩
    · intro q hq
      rcases List.mem_cons.1 hq with rfl | hq
      · exact ⟨hsolid, hne⟩
      · exact hall q hq
    · rw [List.map_cons]
      simp only [Catalog.readOperands, hread, hreads]
    · rw [List.map_cons, Slot.slot_of_fill ho, hslots]

/-! ## Statements that can be understood -/

/-- What a statement needs to be understood: its name is a symbol; an instruction has the parameter of
    its shape and no other. -/
def Readable : Statement → Prop
  | .code op param => (∀ q ∈ param, q.writable = true) ∧
      ∃ p operands, Catalog.standard.find? op = some p ∧
        p.slots.mapM (Slot.fill param) = some operands ∧ operands.findSome? Operand.param? = param
  | .label name => name.isSymbol = true
  | .data name _ => name.isSymbol = true

/-- No two shapes of one mnemonic have the same slots. -/
theorem unique_shape {p : Pattern} (h : p ∈ Catalog.standard.patterns) :
    (Catalog.standard.candidates p.mnemonic).filter (fun q => q.slots == p.slots) = [p] ∧
      p.slots ≠ [] ∧ p.mnemonic.name.solid = true ∧ p.mnemonic.name ≠ [] := by
  have hall : ∀ p ∈ Catalog.standardPatterns,
      (Catalog.standard.candidates p.mnemonic).filter (fun q => q.slots == p.slots) = [p] ∧
        p.slots ≠ [] ∧ p.mnemonic.name.solid = true ∧ p.mnemonic.name ≠ [] := by decide
  exact hall p h

/-- A solid word, a blank and more begin and end with no blank, if the rest ends with none. -/
theorem trim_solid_cons {name rest : Text} (hsolid : name.solid = true) (hname : name ≠ [])
    (hne : rest ≠ []) (hend : rest.trimEnd = rest) :
    Text.trimStart (name ++ ' ' :: rest) = name ++ ' ' :: rest ∧
      Text.trimEnd (name ++ ' ' :: rest) = name ++ ' ' :: rest := by
  have hnil : rest.isEmpty = false := by
    cases rest with
    | nil => exact absurd rfl hne
    | cons c rest => rfl
  have hcons : Text.trimEnd (' ' :: rest) = ' ' :: rest := by
    rw [Text.trimEnd_cons, hend, hnil, Bool.false_and, if_neg (by simp)]
  have hnot : Text.blank (' ' :: rest) = false := by
    rw [← Bool.not_eq_true, ← Text.trimEnd_eq_nil_iff, hcons]
    simp
  constructor
  · rw [Text.trimStart_eq_self_iff]
    intro c hc
    obtain ⟨d, letters, hd⟩ := List.exists_cons_of_ne_nil hname
    rw [hd] at hc hsolid
    obtain rfl : d = c := Option.some.inj hc
    exact Text.not_blank_of_solid hsolid d List.mem_cons_self
  · rw [Text.trimEnd_append, hnot, if_neg (by simp), hcons]

/-- **A mnemonic and its operands**: a line that names solid operands between commas falls apart into
    just the mnemonic and the operands, whatever blanks stand in front. -/
theorem parts_of_written {name b : Text} {parts : List Text} (hb : b.blank = true)
    (hsolid : name.solid = true) (hname : name ≠ []) (hne : parts ≠ [])
    (h : ∀ q ∈ parts, q.solid = true ∧ q ≠ []) :
    (b ++ (name ++ ' ' :: Text.join ", " parts)).trim = name ++ ' ' :: Text.join ", " parts ∧
      (name ++ ' ' :: Text.join ", " parts).headAndRest = (name, Text.join ", " parts) := by
  obtain ⟨part, rest, rfl⟩ := List.exists_cons_of_ne_nil hne
  obtain ⟨hstart, hend⟩ := trim_join h
  have hjoin : Text.join ", " (part :: rest) ≠ [] := by
    intro hnil
    have htokens := tokens_join h
    rw [hnil] at htokens
    cases htokens
  -- the line begins with the mnemonic and ends with the last operand
  obtain ⟨hfirst, hlast⟩ := trim_solid_cons hsolid hname hjoin hend
  constructor
  · exact Text.trim_indented hb hfirst hlast
  · rw [Text.headAndRest_append (Text.not_blank_of_solid hsolid), Text.trim_eq_self hstart hend]

/-- An instruction behind blanks is recognised as itself. -/
theorem classify_codeText {op : Opcode} {param : Option Param} {b : Text} (hb : b.blank = true)
    (h : (Statement.code op param).Readable) :
    Catalog.standard.classify (b ++ codeText op param) = .ok (some ⟨op, param⟩) := by
  obtain ⟨hp, p, operands, hfind, hfill, hparam⟩ := h
  have hmem : p ∈ Catalog.standard.patterns := List.mem_of_find?_eq_some hfind
  have hop : p.op = op := by simpa using List.find?_some hfind
  obtain ⟨hunique, hslots, hsolid, hname⟩ := unique_shape hmem
  obtain ⟨hwritten, hreads, hback⟩ := readOperands_slotText hp hfill
  have htext : codeText op param =
      p.mnemonic.name ++ ' ' :: Text.join ", " (p.slots.map (slotText param)) := by
    simp only [codeText, hfind]
  obtain ⟨htrim, hhead⟩ :=
    parts_of_written hb hsolid hname (by simpa using hslots) hwritten
  rw [← htext] at htrim hhead
  have hmnemonic : Mnemonic.ofName? p.mnemonic.name = some p.mnemonic :=
    Mnemonic.ofName?_eq_some_iff.2 rfl
  have haccept : (Catalog.standard.candidates p.mnemonic).filter (fun q => q.accepts operands) = [p] := by
    rw [← hunique]
    refine List.filter_congr fun q _ => ?_
    rw [Pattern.accepts_eq, hback]
  unfold Catalog.classify
  simp only [htrim, hhead, hmnemonic, tokens_join hwritten, hreads]
  cases hcand : Catalog.standard.candidates p.mnemonic with
  | nil => rw [hcand] at hunique; cases hunique
  | cons q qs =>
    rw [hcand] at haccept
    simp only [haccept, Catalog.decideMatch, hparam, hop]

/-! ## Names in front -/

/-- A line whose first word is a symbol is no instruction. -/
theorem classify_of_symbol {line x : Text} (hx : x.isSymbol = true)
    (hhead : line.trim.headAndRest.1 = x) : Catalog.standard.classify line = .ok none := by
  have hnone : Mnemonic.ofName? x = none := by
    simp only [Text.isSymbol, Text.isReserved, Bool.and_eq_true, Bool.not_eq_true',
      Bool.or_eq_false_iff] at hx
    exact Option.isNone_iff_eq_none.1 (Option.isSome_eq_false_iff.1 hx.2.2)
  unfold Catalog.classify
  simp only [hhead, hnone]

/-- Blanks say nothing. -/
theorem read_of_blank {b : Text} (hb : b.blank = true) : read b = .ok none := by
  have htrim : b.trim = [] := by
    have hnone := Text.trim_indented (t := []) hb rfl rfl
    rwa [List.append_nil] at hnone
  have hwords : b.words = [] := Text.words_of_blank hb
  have hclassify : Catalog.standard.classify b = .ok none := by
    unfold Catalog.classify
    rw [htrim]
    rfl
  rw [read, hclassify]
  show ofWords b.words = .ok none
  rw [hwords]
  rfl

/-- A symbol alone on its line is a label. -/
theorem read_label {b x : Text} (hb : b.blank = true) (hx : x.isSymbol = true) :
    read (b ++ x) = .ok (some (.label x)) := by
  have hfree := Text.not_blank_of_isSymbol hx
  obtain ⟨hs, he⟩ := Text.trim_of_free hfree
  have hhead : (b ++ x).trim.headAndRest.1 = x := by
    rw [Text.trim_indented hb hs he, Text.headAndRest_of_free hfree]
  have hwords : (b ++ x).words = [x] := by
    rw [Text.words_indented hb, Text.words_of_free hfree (Text.ne_nil_of_isSymbol hx)]
  unfold read
  simp only [classify_of_symbol hx hhead, hwords, ofWords, hx, if_true]

/-! ## Declarations -/

/-- Written words have no blanks. -/
theorem not_blank_of_mem_valuesText {values : List UInt16} :
    ∀ c ∈ valuesText values, isBlank c = false := by
  intro c hc
  rcases Text.mem_join hc with hc | ⟨q, hq, hc⟩
  · obtain rfl : c = ',' := by simpa using hc
    decide
  · obtain ⟨v, -, rfl⟩ := List.mem_map.1 hq
    exact Text.not_blank_of_solid (Numeral.solid_hexLiteral _) c hc

/-- Every written word is read as itself. -/
theorem mapM_readValue (values : List UInt16) :
    (values.map fun v => Numeral.hexLiteral v.toNat).mapM readValue = .ok values := by
  induction values with
  | nil => rfl
  | cons v values ih =>
    have hv : readValue (Numeral.hexLiteral v.toNat) = .ok v := by
      simp only [readValue, Numeral.read_hexLiteral]
    rw [List.map_cons, List.mapM_cons, hv, ih]
    rfl

/-- A written list of words is read as these words. -/
theorem readValues_valuesText (values : List UInt16) :
    readValues (valuesText values) = .ok values := by
  cases values with
  | nil => rfl
  | cons v values =>
    have hsolid : ∀ q ∈ (v :: values).map (fun v => Numeral.hexLiteral v.toNat), q.solid = true := by
      intro q hq
      obtain ⟨w, -, rfl⟩ := List.mem_map.1 hq
      exact Numeral.solid_hexLiteral _
    have hfields : (valuesText (v :: values)).fields =
        (v :: values).map fun v => Numeral.hexLiteral v.toNat :=
      Text.fields_join (fun q hq => Text.not_comma_of_solid (hsolid q hq)) (by simp)
    have htrims : ((v :: values).map fun v => Numeral.hexLiteral v.toNat).map Text.trim =
        ((v :: values).map fun v => Numeral.hexLiteral v.toNat).map id :=
      List.map_congr_left fun q hq => (trim_slotText (hsolid q hq)).1
    have hnot : (valuesText (v :: values)).blank = false := by
      cases values with
      | nil => rfl
      | cons w values => rw [valuesText, List.map_cons, List.map_cons, Text.join_cons_cons]; rfl
    unfold readValues
    rw [hnot, if_neg (by simp), hfields, htrims, List.map_id]
    exact mapM_readValue (v :: values)

/-- A symbol, the word for data and written words are a declaration. -/
theorem read_data {b x : Text} (hb : b.blank = true) (hx : x.isSymbol = true) (values : List UInt16) :
    read (b ++ declarationText x (valuesText values)) = .ok (some (.data x values)) := by
  have hfree := Text.not_blank_of_isSymbol hx
  have hsplit : declarationText x (valuesText values) =
      x ++ ' ' :: (dataKeyword ++ ' ' :: valuesText values) := by
    simp [declarationText]
  have hhead : (b ++ declarationText x (valuesText values)).trim.headAndRest.1 = x := by
    rw [hsplit]
    exact Text.head_of_trim hb hfree (Text.ne_nil_of_isSymbol hx) _
  have hkeyword : Text.words dataKeyword = [dataKeyword] := by decide
  have hwords : (b ++ declarationText x (valuesText values)).words =
      x :: dataKeyword :: (valuesText values).words := by
    rw [Text.words_indented hb, hsplit, Text.words_append_cons (by decide),
      Text.words_of_free hfree (Text.ne_nil_of_isSymbol hx), Text.words_append_cons (by decide), hkeyword]
    rfl
  -- without blanks the words behind the keyword are the written list itself
  have hrest : Text.join " " (valuesText values).words = valuesText values := by
    by_cases hne : valuesText values = []
    · rw [hne]; rfl
    · rw [Text.words_of_free not_blank_of_mem_valuesText hne, Text.join_singleton]
  unfold read
  simp only [classify_of_symbol hx hhead, hwords, ofWords, hrest, hx, beq_self_eq_true, Bool.and_self,
    if_true, readValues_valuesText]
  rfl

/-- **Reading is the inverse of writing**: a readable statement, written behind blanks, is read as
    itself. -/
theorem read_text {s : Statement} (h : s.Readable) {b : Text} (hb : b.blank = true) :
    read (b ++ s.text) = .ok (some s) := by
  cases s with
  | code op param =>
    unfold read
    simp only [text, classify_codeText hb h]
  | label name => exact read_label hb h
  | data name values => exact read_data hb h values

end Statement

end Minicore
