/-
  RESPACING — a line laid out in another way.

  Problem: blanks come in many kinds and in any number, and people move them about: they indent, they
  align, they put blanks before or behind a comma.  A line that means something must mean the same
  however it is laid out.

  1. **Specification** — `Respaced`: the blanks at the ends of a line, or those on either side of one comma,
     are changed, added or removed; or a run of blanks takes the place of another run.

  2. **Invariant** — the `shape` of a line, the words between its commas, is the same after every such
     step, and so after any number of them (`Respaced.shape_eq`, `shape_of_respacings`).

  3. **Crux** — whatever a line is made of can be found again along its shape: a word with its list
     (`Text.Introduces.of_shape`), an operand (`Slot.Spelled.of_words`), a literal.  So an answer that is a
     statement depends on the shape alone (`read_of_shape`).

  4. **The whole** — `grammar_of_lines`: what is read from a line, the three forms and their order, and the
     blanks that do not matter.
-/
import Minicore.Proofs.Assembly.Grammar
import Minicore.Proofs.Text.Shape
import Mathlib.Logic.Relation

namespace Minicore

/-! ## Steps -/

/-- Some of the blanks of a line are changed, and no two words run together or come apart. -/
inductive Respaced : Text → Text → Prop
  /-- At the ends of the line. -/
  | ends {b b' c c' : Text} (t : Text) : b.blank = true → b'.blank = true → c.blank = true →
      c'.blank = true → Respaced (b ++ (t ++ b')) (c ++ (t ++ c'))
  /-- On either side of a comma. -/
  | comma {b b' c c' : Text} (s t : Text) : b.blank = true → b'.blank = true → c.blank = true →
      c'.blank = true → Respaced (s ++ (b ++ ',' :: (b' ++ t))) (s ++ (c ++ ',' :: (c' ++ t)))
  /-- A run of blanks. -/
  | gap {b c : Text} (s t : Text) : b ≠ [] → b.blank = true → c ≠ [] → c.blank = true →
      Respaced (s ++ (b ++ t)) (s ++ (c ++ t))

/-- **One step** keeps the shape. -/
theorem Respaced.shape_eq {line other : Text} (h : Respaced line other) : line.shape = other.shape := by
  cases h with
  | ends t hb hb' hc hc' =>
    rw [Text.shape_indented hb, Text.shape_append hb', Text.shape_indented hc, Text.shape_append hc']
  | comma s t hb hb' hc hc' =>
    rw [← List.append_assoc, ← List.append_assoc, Text.shape_comma, Text.shape_comma,
      Text.shape_append hb, Text.shape_indented hb', Text.shape_append hc, Text.shape_indented hc']
  | gap s t hne hb hne' hc => exact Text.shape_gap hne hb hne' hc s t

/-- Any number of steps keeps the shape. -/
theorem shape_of_respacings {line other : Text} (h : Relation.ReflTransGen Respaced line other) :
    line.shape = other.shape := by
  induction h with
  | refl => rfl
  | tail _ hstep ih => rw [ih, hstep.shape_eq]

/-! ## Found again along the shape -/

/-- What is one word with blanks around it is the same word in a text of the same words. -/
theorem Text.trim_of_same_words {t u : Text} (h : u.words = t.words)
    (hfree : ∀ c ∈ t.trim, isBlank c = false) (hne : t.trim ≠ []) : u.trim = t.trim := by
  apply trim_of_words
  rw [h]
  exact words_of_trim rfl hfree hne

section Introduces

variable {t u word : Text} {elements : List Text} (hsolid : word.solid = true) (hne : word ≠ [])

include hsolid hne

/-- A word with its list has the word first in its shape. -/
theorem Text.Introduces.exists_shape (h : Introduces word t elements) :
    ∃ v others, t.shape = (word :: v) :: others := by
  have hfree := not_blank_of_solid hsolid
  have hcomma := not_comma_of_solid hsolid
  cases h with
  | alone => exact ⟨[], [], shape_word hfree hcomma hne⟩
  | list hgap hblank hlist hcommas =>
    obtain ⟨e, rest, rfl⟩ := List.exists_cons_of_ne_nil hlist
    refine ⟨e.words, rest.map words, ?_⟩
    rw [shape_cons hfree hcomma hne hgap hblank, shape, fields_join hcommas hlist]
    rfl

/-- **A word with its list**, no element of which is blank, is found again along the shape. -/
theorem Text.Introduces.of_shape (hu : u.trim = u) (hsome : ∀ e ∈ elements, e.words ≠ [])
    (h : Introduces word t elements) (hshape : u.shape = t.shape) :
    ∃ others, Introduces word u others ∧ others.map words = elements.map words := by
  have hfree := not_blank_of_solid hsolid
  have hcomma := not_comma_of_solid hsolid
  cases h with
  | alone =>
    rw [shape_word hfree hcomma hne] at hshape
    rw [eq_of_shape hu hshape]
    exact ⟨[], .alone, rfl⟩
  | @list gap elements hgap hblank hlist hcommas =>
    obtain ⟨e, rest, rfl⟩ := List.exists_cons_of_ne_nil hlist
    have hbehind : shape (join "," (e :: rest)) = (e :: rest).map words := by
      rw [shape, fields_join hcommas hlist]
    rw [shape_cons hfree hcomma hne hgap hblank, hbehind, List.map_cons, List.modifyHead_cons] at hshape
    obtain ⟨gap', after, rfl, hgap', hblank', -, hafter⟩ :=
      exists_after_of_shape hu hshape (hsome e List.mem_cons_self)
    exact ⟨after.fields, introduces_of_gap hgap' hblank' after, hafter⟩

end Introduces

/-- A bracket at either end of a trimmed text is found again, and the words between. -/
theorem Text.exists_between {c d : Char} {t u : Text} (hc : isBlank c = false) (hd : isBlank d = false)
    (hu : u.trim = u) (h : u.words = Text.words (c :: (t ++ [d]))) :
    ∃ between : Text, u = c :: (between ++ [d]) ∧ between.words = t.words := by
  obtain ⟨hstart, hend⟩ := ends_of_trim hu
  cases u with
  | nil =>
    rw [words_nil, words_cons hc] at h
    cases h
  | cons e rest =>
    have he : isBlank e = false := (trimStart_eq_self_iff _).1 hstart e rfl
    obtain ⟨rfl, hrest⟩ := words_cons_inj he hc h
    -- behind the first character there is another one, since there are words
    have hsome : rest ≠ [] := by
      rintro rfl
      have hd' := words_eq_nil_iff.1 hrest.symm
      rw [blank, List.all_append, Bool.and_eq_true, List.all_cons, Bool.and_eq_true, hd] at hd'
      cases hd'.2.1
    obtain ⟨between, f, rfl⟩ : ∃ between f, rest = between ++ [f] :=
      ⟨_, _, (List.dropLast_concat_getLast hsome).symm⟩
    have hf : isBlank f = false := by
      apply (trimEnd_eq_self_iff _).1 hend f
      rw [← List.cons_append, List.getLast?_concat]
      rfl
    obtain ⟨rfl, hbetween⟩ := words_concat_inj hf hd hrest
    exact ⟨between, rfl, hbetween⟩

/-- **Operands**: what a slot demands is told by the words. -/
theorem Slot.Spelled.of_words {s : Slot} {q : Option Param} {t u : Text} (h : s.Spelled t.trim q)
    (hwords : u.words = t.words) : s.Spelled u.trim q := by
  -- a spelling without blanks is one word
  have hone : ∀ {x : Text}, t.trim = x → (∀ c ∈ x, isBlank c = false) → x ≠ [] → u.trim = x := by
    rintro x rfl hfree hne
    exact Text.trim_of_same_words hwords hfree hne
  generalize ht : t.trim = x at h
  cases h with
  | register r =>
    have hsolid : r.name.solid = true ∧ r.name ≠ [] := by cases r <;> decide
    rw [hone ht (Text.not_blank_of_solid hsolid.1) hsolid.2]
    exact .register r
  | @indirect r b b' hb hb' =>
    have hsame : u.trim.words = Text.words ('[' :: ((b ++ (r.name ++ b')) ++ [']'])) := by
      rw [Text.words_trim, hwords, ← Text.words_trim t, ht]
      simp only [List.append_assoc]
    obtain ⟨between, hu, hbetween⟩ :=
      Text.exists_between (by decide) (by decide) (Text.trim_trim u) hsame
    have hname : between.trim = r.name := by
      have hsolid : r.name.solid = true ∧ r.name ≠ [] := by cases r <;> decide
      apply Text.trim_of_words
      rw [hbetween, Text.words_indented hb, Text.words_append_blank hb',
        Text.words_of_free (Text.not_blank_of_solid hsolid.1) hsolid.2]
    obtain ⟨c, c', hc, hc', hsplit⟩ := Text.exists_trim between
    rw [hname] at hsplit
    rw [hu, hsplit]
    simp only [List.append_assoc]
    exact .indirect r hc hc'
  | literal hdigit hwrites =>
    rw [hone ht (List.forall_mem_cons.2 ⟨by decide, hwrites.free⟩) (List.cons_ne_nil _ _)]
    exact .literal hdigit hwrites
  | address hsymbol =>
    have hfree := Text.not_blank_of_isSymbol hsymbol
    rw [hone ht (List.forall_mem_cons.2 ⟨by decide, hfree⟩) (List.cons_ne_nil _ _)]
    exact .address hsymbol
  | label hsymbol =>
    rw [hone ht (Text.not_blank_of_isSymbol hsymbol) (Text.ne_nil_of_isSymbol hsymbol)]
    exact .label hsymbol

/-- What a slot demands is not blank. -/
theorem Slot.Spelled.words_ne_nil {s : Slot} {q : Option Param} {t : Text} (h : s.Spelled t.trim q) :
    t.words ≠ [] := by
  have hne : ∀ {x : Text}, s.Spelled x q → x ≠ [] := by
    rintro x hx rfl
    generalize hnil : ([] : Text) = x at hx
    cases hx with
    | register r => cases r <;> cases hnil
    | indirect => cases hnil
    | literal => cases hnil
    | address => cases hnil
    | label hsymbol => exact Text.ne_nil_of_isSymbol hsymbol hnil.symm
  intro hwords
  have hblank := Text.words_eq_nil_iff.1 hwords
  have htrim := Text.trim_append hblank []
  exact hne h htrim

/-- The tokens of an instruction, each found again. -/
theorem forall₂_spelled {slots : List Slot} {operands : List (Text × Option Param)} {tokens : List Text}
    (h : List.Forall₂ (fun (s : Slot) d => s.Spelled d.1.trim d.2) slots operands)
    (hwords : tokens.map Text.words = (operands.map Prod.fst).map Text.words) :
    ∃ others : List (Text × Option Param), others.map Prod.fst = tokens ∧
      List.Forall₂ (fun (s : Slot) d => s.Spelled d.1.trim d.2) slots others ∧
      others.findSome? Prod.snd = operands.findSome? Prod.snd := by
  induction h generalizing tokens with
  | nil =>
    obtain rfl : tokens = [] := List.map_eq_nil_iff.1 hwords
    exact ⟨[], rfl, .nil, rfl⟩
  | @cons s d _ _ hspelled _ ih =>
    obtain ⟨token, tokens, rfl, htoken, hrest⟩ := List.map_eq_cons_iff.1 hwords
    obtain ⟨others, rfl, hothers, hparams⟩ := ih hrest
    refine ⟨(token, d.2) :: others, rfl, .cons (hspelled.of_words htoken) hothers, ?_⟩
    rw [List.findSome?_cons, List.findSome?_cons, hparams]

/-- A literal with blanks around it is the only word. -/
theorem Literal.writes_trim_iff {t : Text} {n : Nat} :
    Literal.Writes t.trim n ↔ ∃ w, t.words = [w] ∧ Literal.Writes w n := by
  constructor
  · intro h
    exact ⟨t.trim, Text.words_of_trim rfl h.free h.ne_nil, h⟩
  · rintro ⟨w, hwords, h⟩
    rwa [Text.trim_of_words hwords]

theorem Literal.words_ne_nil {t : Text} {n : Nat} (h : Literal.Writes t.trim n) : t.words ≠ [] := by
  obtain ⟨w, hwords, -⟩ := writes_trim_iff.1 h
  rw [hwords]
  exact List.cons_ne_nil _ _

/-- Literals, each found again. -/
theorem forall₂_writes_congr {elements others : List Text} {values : List UInt16}
    (hwords : others.map Text.words = elements.map Text.words) :
    List.Forall₂ (fun (e : Text) (v : UInt16) => Literal.Writes e.trim v.toNat) others values ↔
      List.Forall₂ (fun (e : Text) (v : UInt16) => Literal.Writes e.trim v.toNat) elements values := by
  have hmap : ∀ es : List Text,
      List.Forall₂ (fun (e : Text) (v : UInt16) => Literal.Writes e.trim v.toNat) es values ↔
        List.Forall₂ (fun ws (v : UInt16) => ∃ w, ws = [w] ∧ Literal.Writes w v.toNat)
          (es.map Text.words) values := by
    intro es
    simp only [List.forall₂_map_left_iff, Literal.writes_trim_iff]
  rw [hmap, hmap, hwords]

/-! ## The forms, found again -/

section Forms

variable {line other : Text} (hshape : other.shape = line.shape)

include hshape

/-- An instruction of the same shape. -/
theorem accepts_of_shape {ps : List Pattern} {op : Opcode} {param : Option Param}
    (h : Catalog.Accepts ps line op param) : Catalog.Accepts ps other op param := by
  obtain ⟨p, hp, hop, operands, hspells, hspelled, hparam⟩ := h
  have hsome : ∀ e ∈ operands.map Prod.fst, Text.words e ≠ [] := by
    have hboth := hspelled.imp fun s d hs => And.intro hs.words_ne_nil hs
    intro e he
    obtain ⟨d, hd, rfl⟩ := List.mem_map.1 he
    exact ((List.forall₂_and_left _ _).1 hboth.flip).1 d hd
  have hname : p.mnemonic.name.solid = true ∧ p.mnemonic.name ≠ [] := by
    cases p.mnemonic <;> decide
  have htrimmed : other.trim.shape = line.trim.shape := by
    rw [Text.shape_trim, Text.shape_trim, hshape]
  obtain ⟨tokens, hintroduces, hwords⟩ := Text.Introduces.of_shape hname.1 hname.2 (Text.trim_trim other)
    hsome (Mnemonic.spells_iff.1 hspells) htrimmed
  obtain ⟨others, rfl, hothers, hparams⟩ := forall₂_spelled hspelled hwords
  refine ⟨p, hp, hop, others, Mnemonic.spells_iff.2 hintroduces, hothers, ?_⟩
  rw [hparam, hparams]

/-- A declaration of the same shape. -/
theorem declares_of_shape {name : Text} {elements : List Text} (hsome : ∀ e ∈ elements, e.words ≠ [])
    (h : Statement.Declares line.trim name elements) :
    ∃ others, Statement.Declares other.trim name others ∧
      others.map Text.words = elements.map Text.words := by
  obtain ⟨hsymbol, gap, after, hline, hgap, hblank, hintroduces⟩ := h
  have hsolid := Text.solid_of_isSymbol hsymbol
  have hkeyword : dataKeyword.solid = true ∧ dataKeyword ≠ [] := by decide
  obtain ⟨v, others, hafter⟩ := hintroduces.exists_shape hkeyword.1 hkeyword.2
  have htrimmed : other.trim.shape = (name :: dataKeyword :: v) :: others := by
    rw [Text.shape_trim, hshape, ← Text.shape_trim, hline,
      Text.shape_cons (Text.not_blank_of_solid hsolid) (Text.not_comma_of_solid hsolid)
        (Text.ne_nil_of_isSymbol hsymbol) hgap hblank, hafter]
    rfl
  obtain ⟨gap', after', hother, hgap', hblank', htrim', hafter'⟩ :=
    Text.exists_after_of_shape (Text.trim_trim other) htrimmed (List.cons_ne_nil _ _)
  obtain ⟨found, hfound, hwords⟩ :=
    hintroduces.of_shape hkeyword.1 hkeyword.2 htrim' hsome (hafter'.trans hafter.symm)
  exact ⟨found, ⟨hsymbol, gap', after', hother, hgap', hblank', hfound⟩, hwords⟩

/-- A label of the same shape. -/
theorem label_of_shape (h : line.trim.isSymbol = true) : other.trim = line.trim := by
  have hsolid := Text.solid_of_isSymbol h
  apply Text.eq_of_shape (Text.trim_trim other)
  rw [Text.shape_trim, hshape, ← Text.shape_trim]
  exact Text.shape_word (Text.not_blank_of_solid hsolid) (Text.not_comma_of_solid hsolid)
    (Text.ne_nil_of_isSymbol h)

/-- A statement of the same shape. -/
theorem read_of_shape {s : Statement} (h : Statement.read line = .ok (some s)) :
    Statement.read other = .ok (some s) := by
  apply Statement.read_of_form
  cases Statement.read_eq_iff.1 h with
  | instruction hclassify =>
    apply Statement.Form.instruction
    apply Catalog.classify_eq_some_iff_accepts.2
    exact accepts_of_shape hshape (Catalog.classify_eq_some_iff_accepts.1 hclassify)
  | declaration hdeclares hvalues =>
    obtain ⟨hsome, -⟩ := (List.forall₂_and_left _ _).1
      (hvalues.imp fun e v hv => And.intro (Literal.words_ne_nil hv) hv)
    obtain ⟨others, hothers, hwords⟩ := declares_of_shape hshape hsome hdeclares
    exact .declaration hothers ((forall₂_writes_congr hwords).2 hvalues)
  | label hsymbol =>
    have hsame := label_of_shape hshape hsymbol
    rw [← hsame] at hsymbol ⊢
    exact .label hsymbol

end Forms

/-! ## The whole -/

namespace Statement

/-- **The grammar of lines.**  An instruction is read exactly when the catalog has the line; a declaration
    when the line, trimmed, is a symbol, blanks, and the word for data, alone or with literals of 16 bits
    between commas, and then these are its values; a label when the line, trimmed, is a symbol.  A fault
    is the number that the catalog reports, or the first element of a declared list that is no literal
    of 16 bits, its words put together with single blanks.  All other lines say nothing.  A declaration
    is no instruction and no label, and a label is no instruction; so the three may be tried in any
    order.  And a statement stays the same however the line is laid out. -/
theorem grammar_of_lines (line : Text) :
    (∀ op param, read line = .ok (some (.code op param)) ↔
      Catalog.standard.classify line = .ok (some ⟨op, param⟩)) ∧
    (∀ name values, read line = .ok (some (.data name values)) ↔
      ∃ elements, Declares line.trim name elements ∧
        List.Forall₂ (fun (e : Text) (v : UInt16) => Literal.Writes e.trim v.toNat) elements values) ∧
    (∀ name, read line = .ok (some (.label name)) ↔ line.trim = name ∧ name.isSymbol = true) ∧
    (∀ cause, read line = .error cause ↔ ∃ v, cause = .invalidLiteral v ∧
      (Catalog.standard.classify line = .error (.invalidLiteral v) ∨
        ∃ name before e after, Declares line.trim name (before ++ e :: after) ∧
          (∀ b ∈ before, ∃ w : UInt16, Literal.Writes b.trim w.toNat) ∧
          (∀ w : UInt16, ¬ Literal.Writes e.trim w.toNat) ∧ v = e.squeezed)) ∧
    (read line = .ok none ↔ Catalog.standard.classify line = .ok none ∧
      (∀ name elements, ¬ Declares line.trim name elements) ∧ line.trim.isSymbol = false) ∧
    (∀ name elements, Declares line.trim name elements →
      Catalog.standard.classify line = .ok none ∧ line.trim.isSymbol = false) ∧
    (line.trim.isSymbol = true → Catalog.standard.classify line = .ok none) ∧
    (∀ attempts : List (Text → Except Cause (Option Statement)),
      attempts.Perm [asInstruction, asDeclaration, asLabel] →
        read line = firstAnswer (attempts.map fun attempt => attempt line)) ∧
    ∀ s other, read line = .ok (some s) → Relation.ReflTransGen Respaced line other →
      read other = .ok (some s) := by
  refine ⟨?_, ?_, ?_, ?_, ?_, ?_, ?_, ?_, ?_⟩
  · intro op param
    rw [read_eq_iff]
    constructor
    · rintro ⟨h⟩
      exact h
    · exact .instruction
  · intro name values
    rw [read_eq_iff]
    constructor
    · intro h
      cases h with
      | declaration hdeclares hvalues => exact ⟨_, hdeclares, hvalues⟩
    · rintro ⟨elements, hdeclares, hvalues⟩
      exact .declaration hdeclares hvalues
  · intro name
    rw [read_eq_iff]
    constructor
    · intro h
      cases h with
      | label hsymbol => exact ⟨rfl, hsymbol⟩
    · rintro ⟨rfl, hsymbol⟩
      exact .label hsymbol
  · intro cause
    rw [read_eq_iff]
    constructor
    · intro h
      cases h with
      | refused hclassify => exact ⟨_, rfl, .inl hclassify⟩
      | badElement hdeclares hbefore hbad =>
        exact ⟨_, rfl, .inr ⟨_, _, _, _, hdeclares, hbefore, hbad, rfl⟩⟩
    · rintro ⟨v, rfl, hclassify | ⟨name, before, e, after, hdeclares, hbefore, hbad, rfl⟩⟩
      · exact .refused hclassify
      · exact .badElement hdeclares hbefore hbad
  · rw [read_eq_iff]
    constructor
    · intro h
      cases h with
      | nothing hclassify hdeclares hlabel => exact ⟨hclassify, hdeclares, hlabel⟩
    · rintro ⟨hclassify, hdeclares, hlabel⟩
      exact .nothing hclassify hdeclares hlabel
  · intro name elements h
    obtain ⟨ws, hwords, -⟩ := words_of_declares h
    refine ⟨classify_of_words h.1 hwords, ?_⟩
    rw [← Bool.not_eq_true]
    intro hsymbol
    rw [words_of_label hsymbol] at hwords
    cases hwords
  · intro hsymbol
    exact classify_of_words hsymbol (words_of_label hsymbol)
  · intro attempts hperm
    exact read_of_attempts hperm line
  · intro s other h hsteps
    exact read_of_shape (shape_of_respacings hsteps).symm h

/-- An instruction, laid out with a tab and with a blank before its comma; and a declaration whose second
    element has two words, in front of a comma too many. -/
theorem grammar_of_laid_out_lines :
    read "LDRB\t R0 ,[ R1 ]".toList = .ok (some (.code .ldr0 none)) ∧
      ∃ name before e after,
        Declares (Text.trim " tab DCB 1, 2\u2003 x,".toList) name (before ++ e :: after) ∧
          (∀ b ∈ before, ∃ w : UInt16, Literal.Writes b.trim w.toNat) ∧
          (∀ w : UInt16, ¬ Literal.Writes e.trim w.toNat) ∧ "2 x".toList = e.squeezed := by
  constructor
  · obtain ⟨-, -, -, -, -, -, -, -, hrespaced⟩ := grammar_of_lines "LDRB R0,[ R1 ]".toList
    have htab : Respaced ("LDRB".toList ++ (" ".toList ++ "R0,[ R1 ]".toList))
        ("LDRB".toList ++ ("\t ".toList ++ "R0,[ R1 ]".toList)) :=
      .gap _ _ (by decide) (by decide) (by decide) (by decide)
    have hcomma : Respaced ("LDRB\t R0".toList ++ ([] ++ ',' :: ([] ++ "[ R1 ]".toList)))
        ("LDRB\t R0".toList ++ (" ".toList ++ ',' :: ([] ++ "[ R1 ]".toList))) :=
      .comma _ _ rfl rfl (by decide) rfl
    exact hrespaced _ _ rfl (.tail (.single htab) hcomma)
  · obtain ⟨-, -, -, hfault, -⟩ := grammar_of_lines " tab DCB 1, 2\u2003 x,".toList
    obtain ⟨v, hv, hclassify | ⟨name, before, e, after, h⟩⟩ :=
      (hfault (.invalidLiteral "2 x".toList)).1 rfl
    · cases hclassify
    · obtain rfl := Cause.invalidLiteral.inj hv
      exact ⟨name, before, e, after, h⟩

end Statement

end Minicore
