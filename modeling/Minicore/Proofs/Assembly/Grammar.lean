/-
  GRAMMAR — what a source line is, told by how it is put together.

  Problem: a line is read by asking the catalog, cutting the line at its blanks, looking at two words and
  cutting the others, put together again, at commas.  Whoever writes a line thinks of three FORMS — an
  instruction, a declaration, a label — and of what may be wrong with each.

  1. **Specification** — `Text.Introduces`: a word, alone or with a list behind it.  `Declares`: a symbol,
     blanks, and the word for data with its list.  `Form`: the answer that a line has, one case for each
     form, one for each fault, and one for all other lines.

  2. **Lists** — what follows the word for data is cut into the same elements, whether it is cut as it
     stands or after its words were put together again (`readValues_of_introduces`); the first element
     that is no literal decides (`readElements_eq_error_iff`).

  3. **Crux** — the first word tells the forms apart: that of a declaration and of a label is a symbol, and
     no symbol is a mnemonic (`classify_of_words`).  So every line has one answer, and reading finds it
     (`read_eq_iff`).

  4. **Order** — of the three attempts at a line at most one comes to an answer, so the order in which they
     are made does not matter (`read_of_attempts`).
-/
import Minicore.Proofs.Assembly.Characters
import Minicore.Proofs.Machine.Language

namespace Minicore

/-! ## Literals have no blanks -/

theorem Numeral.not_blank_of_digit? {radix d : Nat} {c : Char} (h : digit? radix c = some d) :
    isBlank c = false := by
  obtain ⟨hvalue, -⟩ := Option.filter_eq_some_iff.1 h
  exact (Text.not_blank_of_continuesIdentifier (continues_of_digitValue hvalue)).1

theorem Numeral.Writes.free {radix n : Nat} {t : Text} (h : Numeral.Writes radix t n) :
    ∀ c ∈ t, isBlank c = false := by
  obtain ⟨digits, ht, -, values, hvalues, -⟩ := h
  have hdigits : ∀ c ∈ digits, isBlank c = false := by
    clear ht
    induction digits generalizing values with
    | nil => simp
    | cons c digits ih =>
      rw [List.mapM_cons] at hvalues
      obtain ⟨d, hd, hrest⟩ := Option.bind_eq_some_iff.1 hvalues
      obtain ⟨ds, hds, -⟩ := Option.bind_eq_some_iff.1 hrest
      exact List.forall_mem_cons.2 ⟨not_blank_of_digit? hd, ih ds hds⟩
  rcases ht with rfl | rfl
  · exact hdigits
  · exact List.forall_mem_cons.2 ⟨by decide, hdigits⟩

namespace Literal

variable {t : Text} {n : Nat}

theorem Writes.free (h : Writes t n) : ∀ c ∈ t, isBlank c = false := by
  have hmark : ∀ (a b : Char) {u : Text}, isBlank a = false → isBlank b = false →
      (∀ c ∈ u, isBlank c = false) → ∀ c ∈ a :: b :: u, isBlank c = false := by
    intro a b u ha hb hu
    exact List.forall_mem_cons.2 ⟨ha, List.forall_mem_cons.2 ⟨hb, hu⟩⟩
  cases h with
  | binary h => exact hmark _ _ (by decide) (by decide) h.free
  | octal h => exact hmark _ _ (by decide) (by decide) h.free
  | hexLower h => exact hmark _ _ (by decide) (by decide) h.free
  | hexUpper h => exact hmark _ _ (by decide) (by decide) h.free
  | decimal h => exact h.free

theorem Writes.ne_nil (h : Writes t n) : t ≠ [] := by
  rintro rfl
  cases h with
  | decimal h =>
    obtain ⟨digits, ht | ht, hne, -⟩ := h
    · exact hne ht.symm
    · cases ht

/-- A literal is one word, so it stays a literal when words are put together again. -/
theorem writes_squeezed_iff : Writes t.squeezed n ↔ Writes t.trim n := by
  constructor
  · intro h
    have hone := Text.words_of_free h.free h.ne_nil
    rw [Text.words_squeezed] at hone
    rwa [Text.trim_of_words hone]
  · intro h
    rwa [← Text.squeezed_trim, Text.squeezed_of_free h.free]

end Literal

/-! ## A word and its list -/

namespace Text

/-- The text is the word alone, with no elements, or the word, at least one blank, and elements between
    commas. -/
inductive Introduces (word : Text) : Text → List Text → Prop
  | alone : Introduces word word []
  | list {gap : Text} {elements : List Text} : gap ≠ [] → gap.blank = true → elements ≠ [] →
      (∀ e ∈ elements, ',' ∉ e) → Introduces word (word ++ (gap ++ join "," elements)) elements

variable {t word : Text} {elements : List Text}

/-- Whatever stands behind the word and blanks is a list. -/
theorem introduces_of_gap {gap : Text} (hgap : gap ≠ []) (hblank : gap.blank = true) (after : Text) :
    Introduces word (word ++ (gap ++ after)) after.fields := by
  have hlist : Introduces word (word ++ (gap ++ join "," after.fields)) after.fields :=
    .list hgap hblank (splitBy_ne_nil _ after) fun _ => not_comma_of_mem_fields
  rwa [join_fields] at hlist

/-- A trimmed text that starts with the word is the word and its list. -/
theorem exists_introduces {ws : List Text} (ht : t.trim = t) (h : words t = word :: ws) :
    ∃ elements, Introduces word t elements := by
  by_cases hws : ws = []
  · rw [hws] at h
    rw [eq_of_words ht h]
    exact ⟨[], .alone⟩
  · obtain ⟨gap, after, rfl, hgap, hblank, -, -⟩ := exists_after_of_words ht h hws
    exact ⟨after.fields, introduces_of_gap hgap hblank after⟩

/-- What introduces a list starts with the word. -/
theorem Introduces.exists_append (h : Introduces word t elements) : ∃ rest, t = word ++ rest := by
  cases h with
  | alone => exact ⟨[], (List.append_nil _).symm⟩
  | list => exact ⟨_, rfl⟩

end Text

/-- An instruction is its mnemonic with a list of operands. -/
theorem Mnemonic.spells_iff {m : Mnemonic} {line : Text} {tokens : List Text} :
    m.Spells line tokens ↔ Text.Introduces m.name line tokens := by
  constructor
  · intro h
    cases h with
    | alone => exact .alone
    | operands hgap hblank hne hfree => exact .list hgap hblank hne hfree
  · intro h
    cases h with
    | alone => exact .alone
    | list hgap hblank hne hfree => exact .operands hgap hblank hne hfree

namespace Statement

/-! ## The values of a list -/

/-- The values of elements, blanks around them removed; the words of an element that is not one word are
    put together with single blanks. -/
def readElements (elements : List Text) : Except Cause (List UInt16) :=
  (elements.map Text.squeezed).mapM readValue

theorem readValue_eq_ok_iff {t : Text} {v : UInt16} :
    readValue t = .ok v ↔ Literal.Writes t v.toNat := by
  rw [← Literal.read_eq_ok_iff, readValue]
  cases Literal.read t with
  | ok w =>
    show Except.ok w = Except.ok v ↔ _
    rw [Except.ok.injEq, Except.ok.injEq]
  | error fault =>
    constructor
    · intro h; cases h
    · intro h; cases h

theorem readValue_eq_error_iff {t : Text} {cause : Cause} :
    readValue t = .error cause ↔
      cause = .invalidLiteral t ∧ ∀ v : UInt16, ¬ Literal.Writes t v.toNat := by
  have hnone : (∀ v : UInt16, ¬ Literal.Writes t v.toNat) ↔ ∀ v, Literal.read t ≠ .ok v :=
    forall_congr' fun v => not_congr Literal.read_eq_ok_iff.symm
  rw [hnone, readValue]
  cases Literal.read t with
  | ok v =>
    constructor
    · intro h; cases h
    · rintro ⟨-, hnot⟩
      exact absurd rfl (hnot v)
  | error fault =>
    constructor
    · intro h
      cases h
      exact ⟨rfl, fun v hv => by cases hv⟩
    · rintro ⟨rfl, -⟩
      rfl

/-- Behind a literal the reader goes on. -/
theorem readElements_cons {e : Text} {v : UInt16} (h : Literal.Writes e.trim v.toNat)
    (elements : List Text) : readElements (e :: elements) = (readElements elements).map (v :: ·) := by
  have hread : readValue e.squeezed = .ok v :=
    readValue_eq_ok_iff.2 (Literal.writes_squeezed_iff.2 h)
  show (e.squeezed :: elements.map Text.squeezed).mapM readValue = _
  rw [List.mapM_cons, hread]
  rfl

/-- An element that is no literal ends the search. -/
theorem readElements_bad {e : Text} (h : ∀ v : UInt16, ¬ Literal.Writes e.trim v.toNat)
    (elements : List Text) : readElements (e :: elements) = .error (.invalidLiteral e.squeezed) := by
  have hread : readValue e.squeezed = .error (.invalidLiteral e.squeezed) := by
    apply readValue_eq_error_iff.2
    exact ⟨rfl, fun v hv => h v (Literal.writes_squeezed_iff.1 hv)⟩
  show (e.squeezed :: elements.map Text.squeezed).mapM readValue = _
  rw [List.mapM_cons, hread]
  rfl

/-- **Values**: a list is read when each element is a literal of 16 bits, as their values in order. -/
theorem readElements_eq_ok_iff {elements : List Text} {values : List UInt16} :
    readElements elements = .ok values ↔
      List.Forall₂ (fun (e : Text) (v : UInt16) => Literal.Writes e.trim v.toNat) elements values := by
  constructor
  · intro h
    induction elements generalizing values with
    | nil =>
      obtain rfl : [] = values := Except.ok.inj h
      exact .nil
    | cons e elements ih =>
      by_cases he : ∃ v : UInt16, Literal.Writes e.trim v.toNat
      · obtain ⟨v, hv⟩ := he
        rw [readElements_cons hv] at h
        cases hrest : readElements elements with
        | error cause => rw [hrest] at h; cases h
        | ok vs =>
          rw [hrest] at h
          obtain rfl : v :: vs = values := Except.ok.inj h
          exact .cons hv (ih hrest)
      · rw [readElements_bad (fun v hv => he ⟨v, hv⟩)] at h
        cases h
  · intro h
    induction h with
    | nil => rfl
    | cons hv _ ih => rw [readElements_cons hv, ih]; rfl

/-- **The first bad element** decides, and is what is reported. -/
theorem readElements_eq_error_iff {elements : List Text} {cause : Cause} :
    readElements elements = .error cause ↔
      ∃ before e after, elements = before ++ e :: after ∧
        (∀ b ∈ before, ∃ v : UInt16, Literal.Writes b.trim v.toNat) ∧
        (∀ v : UInt16, ¬ Literal.Writes e.trim v.toNat) ∧ cause = .invalidLiteral e.squeezed := by
  constructor
  · intro h
    induction elements with
    | nil => cases h
    | cons e elements ih =>
      by_cases he : ∃ v : UInt16, Literal.Writes e.trim v.toNat
      · obtain ⟨v, hv⟩ := he
        rw [readElements_cons hv] at h
        cases hrest : readElements elements with
        | ok vs => rw [hrest] at h; cases h
        | error other =>
          rw [hrest] at h
          obtain rfl : other = cause := Except.error.inj h
          obtain ⟨before, bad, after, rfl, hbefore, hbad, hcause⟩ := ih hrest
          exact ⟨e :: before, bad, after, rfl,
            List.forall_mem_cons.2 ⟨⟨v, hv⟩, hbefore⟩, hbad, hcause⟩
      · have hbad : ∀ v : UInt16, ¬ Literal.Writes e.trim v.toNat := fun v hv => he ⟨v, hv⟩
        rw [readElements_bad hbad] at h
        exact ⟨[], e, elements, rfl, List.forall_mem_nil _, hbad, (Except.error.inj h).symm⟩
  · rintro ⟨before, e, after, rfl, hbefore, hbad, rfl⟩
    induction before with
    | nil => exact readElements_bad hbad after
    | cons b before ih =>
      obtain ⟨⟨v, hv⟩, hbefore⟩ := List.forall_mem_cons.1 hbefore
      rw [List.cons_append, readElements_cons hv, ih hbefore]
      rfl

/-- **Cut at blanks first**: the words behind the word are read as the elements of its list. -/
theorem readValues_of_introduces {t word : Text} {elements : List Text}
    (ht : t.trim = t) (hword : ∀ c ∈ word, isBlank c = false) (hne : word ≠ [])
    (h : Text.Introduces word t elements) :
    ∃ ws, t.words = word :: ws ∧ readValues (Text.join " " ws) = readElements elements := by
  cases h with
  | alone => exact ⟨[], Text.words_of_free hword hne, rfl⟩
  | @list gap elements hgap hblank hlist hfree =>
    have hsome := Text.words_ne_nil_of_after ht hgap hblank
    refine ⟨_, Text.words_of_after hword hne hgap hblank, ?_⟩
    have hnot : ¬ (Text.join "," elements).squeezed.blank = true := by
      rw [← Text.words_eq_nil_iff, Text.words_squeezed]
      exact hsome
    show readValues (Text.join "," elements).squeezed = readElements elements
    rw [readValues, if_neg hnot, Text.fields_squeezed, Text.fields_join hfree hlist, readElements]

/-! ## Declarations -/

/-- The line, which has no blanks at its ends, declares a list under the name: a symbol, blanks, and the
    word for data with the elements of the list. -/
def Declares (line name : Text) (elements : List Text) : Prop :=
  name.isSymbol = true ∧ ∃ gap after : Text, line = name ++ (gap ++ after) ∧ gap ≠ [] ∧
    gap.blank = true ∧ Text.Introduces dataKeyword after elements

theorem words_of_isSymbol {name : Text} (h : name.isSymbol = true) : Text.words name = [name] :=
  Text.words_of_free (Text.not_blank_of_isSymbol h) (Text.ne_nil_of_isSymbol h)

section Lines

variable {line name : Text} {elements : List Text}

/-- What the reader of words finds in a declaration. -/
theorem words_of_declares (h : Declares line.trim name elements) :
    ∃ ws, line.words = name :: dataKeyword :: ws ∧
      readValues (Text.join " " ws) = readElements elements := by
  obtain ⟨hsymbol, gap, after, hline, hgap, hblank, hintroduces⟩ := h
  -- the word for data starts the rest, so the rest is trimmed as the line is
  have htrim : after.trim = after := by
    obtain ⟨rest, hrest⟩ := hintroduces.exists_append
    have hafter : after = 'D' :: ("CB".toList ++ rest) := hrest
    have hend := (Text.ends_trim line).2
    rw [hline, hafter, ← List.append_assoc] at hend
    rw [hafter]
    exact Text.trim_of_suffix (by decide) hend
  obtain ⟨ws, hws, hvalues⟩ :=
    readValues_of_introduces htrim (Text.not_blank_of_solid (by decide)) (by decide) hintroduces
  refine ⟨ws, ?_, hvalues⟩
  rw [← Text.words_trim, hline,
    Text.words_of_after (Text.not_blank_of_isSymbol hsymbol) (Text.ne_nil_of_isSymbol hsymbol) hgap
      hblank, hws]

/-- A symbol and the word for data start a declaration. -/
theorem exists_declares {ws : List Text} (hsymbol : name.isSymbol = true)
    (h : line.words = name :: dataKeyword :: ws) : ∃ elements, Declares line.trim name elements := by
  rw [← Text.words_trim] at h
  obtain ⟨gap, after, hline, hgap, hblank, htrim, hafter⟩ :=
    Text.exists_after_of_words (Text.trim_trim line) h (List.cons_ne_nil _ _)
  obtain ⟨elements, hintroduces⟩ := Text.exists_introduces htrim hafter
  exact ⟨elements, hsymbol, gap, after, hline, hgap, hblank, hintroduces⟩

/-! ## One answer for each line -/

/-- The answer that a line has. -/
inductive Form (line : Text) : Except Cause (Option Statement) → Prop
  /-- The catalog has the line. -/
  | instruction {op : Opcode} {param : Option Param} :
      Catalog.standard.classify line = .ok (some ⟨op, param⟩) → Form line (.ok (some (.code op param)))
  /-- The catalog reports a number. -/
  | refused {number : Text} :
      Catalog.standard.classify line = .error (.invalidLiteral number) →
      Form line (.error (.invalidLiteral number))
  /-- A list of literals of 16 bits is declared. -/
  | declaration {name : Text} {elements : List Text} {values : List UInt16} :
      Declares line.trim name elements →
      List.Forall₂ (fun (e : Text) (v : UInt16) => Literal.Writes e.trim v.toNat) elements values →
      Form line (.ok (some (.data name values)))
  /-- A list is declared in which `e` is the first that is no literal of 16 bits. -/
  | badElement {name : Text} {before : List Text} {e : Text} {after : List Text} :
      Declares line.trim name (before ++ e :: after) →
      (∀ b ∈ before, ∃ v : UInt16, Literal.Writes b.trim v.toNat) →
      (∀ v : UInt16, ¬ Literal.Writes e.trim v.toNat) → Form line (.error (.invalidLiteral e.squeezed))
  /-- The line is a symbol. -/
  | label : line.trim.isSymbol = true → Form line (.ok (some (.label line.trim)))
  /-- The line is none of these. -/
  | nothing : Catalog.standard.classify line = .ok none →
      (∀ name elements, ¬ Declares line.trim name elements) → line.trim.isSymbol = false →
      Form line (.ok none)

/-- A line whose first word is a symbol is no instruction. -/
theorem classify_of_words {ws : List Text} (hsymbol : name.isSymbol = true)
    (h : line.words = name :: ws) : Catalog.standard.classify line = .ok none :=
  classify_of_symbol hsymbol (Text.head_of_words h)

theorem words_of_label (h : line.trim.isSymbol = true) : line.words = [line.trim] := by
  rw [← words_of_isSymbol h, Text.words_trim]

/-- What a declaration reads as, told by its elements. -/
theorem read_of_declares (h : Declares line.trim name elements) :
    read line = (readElements elements).map fun values => some (.data name values) := by
  obtain ⟨ws, hwords, hvalues⟩ := words_of_declares h
  rw [read, classify_of_words h.1 hwords]
  show ofWords line.words = _
  rw [hwords, ofWords, h.1, hvalues]
  rfl

theorem read_of_label (h : line.trim.isSymbol = true) : read line = .ok (some (.label line.trim)) := by
  have hwords := words_of_label h
  rw [read, classify_of_words h hwords]
  show ofWords line.words = _
  rw [hwords, ofWords, h]
  rfl

/-- Words that are neither a declaration nor a label say nothing. -/
theorem ofWords_of_nothing {ws : List Text}
    (hdata : ∀ x values, ws = x :: dataKeyword :: values → x.isSymbol = false)
    (hlabel : ∀ x, ws = [x] → x.isSymbol = false) : ofWords ws = .ok none := by
  cases ws with
  | nil => rfl
  | cons word ws =>
    cases ws with
    | nil =>
      rw [ofWords, hlabel word rfl]
      rfl
    | cons keyword ws =>
      have hnot : ¬ (keyword == dataKeyword && word.isSymbol) = true := by
        rw [Bool.and_eq_true, beq_iff_eq]
        rintro ⟨rfl, hsymbol⟩
        rw [hdata word ws rfl] at hsymbol
        cases hsymbol
      rw [ofWords, if_neg hnot]

/-- Reading finds the answer. -/
theorem read_of_form {answer : Except Cause (Option Statement)} (h : Form line answer) :
    read line = answer := by
  cases h with
  | instruction h => rw [read, h]
  | refused h => rw [read, h]; rfl
  | declaration h hvalues =>
    rw [read_of_declares h, readElements_eq_ok_iff.2 hvalues]
    rfl
  | badElement h hbefore hbad =>
    rw [read_of_declares h, readElements_eq_error_iff.2 ⟨_, _, _, rfl, hbefore, hbad, rfl⟩]
    rfl
  | label h => exact read_of_label h
  | nothing hclassify hdeclares hlabel =>
    rw [read, hclassify]
    apply ofWords_of_nothing
    · intro x values hwords
      rw [← Bool.not_eq_true]
      intro hsymbol
      obtain ⟨elements, h⟩ := exists_declares hsymbol hwords
      exact hdeclares x elements h
    · intro x hwords
      rwa [← Text.trim_of_words hwords]

/-- **Every line has an answer.** -/
theorem exists_form (line : Text) : ∃ answer, Form line answer := by
  cases hclassify : Catalog.standard.classify line with
  | error e =>
    obtain ⟨number, rfl, -⟩ := Catalog.classify_eq_error_iff_refuses.1 hclassify
    exact ⟨_, .refused hclassify⟩
  | ok found =>
    cases found with
    | some answer => exact ⟨_, .instruction hclassify⟩
    | none =>
      by_cases hdeclares : ∃ name elements, Declares line.trim name elements
      · obtain ⟨name, elements, h⟩ := hdeclares
        cases hvalues : readElements elements with
        | ok values => exact ⟨_, .declaration h (readElements_eq_ok_iff.1 hvalues)⟩
        | error cause =>
          obtain ⟨before, e, after, rfl, hbefore, hbad, -⟩ := readElements_eq_error_iff.1 hvalues
          exact ⟨_, .badElement h hbefore hbad⟩
      · cases hlabel : line.trim.isSymbol with
        | true => exact ⟨_, .label hlabel⟩
        | false =>
          have hnot : ∀ name elements, ¬ Declares line.trim name elements :=
            fun name elements h => hdeclares ⟨name, elements, h⟩
          exact ⟨_, .nothing hclassify hnot hlabel⟩

/-- **Reading is the grammar**: the answer of a line is what is read. -/
theorem read_eq_iff {answer : Except Cause (Option Statement)} :
    read line = answer ↔ Form line answer := by
  constructor
  · rintro rfl
    obtain ⟨answer, h⟩ := exists_form line
    rwa [read_of_form h]
  · exact read_of_form

end Lines

/-! ## Attempts in any order -/

/-- The line as an instruction. -/
def asInstruction (line : Text) : Except Cause (Option Statement) :=
  match Catalog.standard.classify line with
  | .error e => .error (Cause.ofClassify e)
  | .ok found => .ok (found.map fun m => .code m.op m.param)

/-- The words as a declaration. -/
def declarationOf : List Text → Except Cause (Option Statement)
  | name :: keyword :: values =>
    if keyword == dataKeyword && name.isSymbol then
      (readValues (Text.join " " values)).map fun vs => some (.data name vs)
    else .ok none
  | _ => .ok none

/-- The words as a label. -/
def labelOf : List Text → Except Cause (Option Statement)
  | [name] => .ok (if name.isSymbol then some (.label name) else none)
  | _ => .ok none

/-- The line as a declaration. -/
def asDeclaration (line : Text) : Except Cause (Option Statement) := declarationOf line.words

/-- The line as a label. -/
def asLabel (line : Text) : Except Cause (Option Statement) := labelOf line.words

/-- The first of the answers that is a statement or a fault. -/
def firstAnswer : List (Except Cause (Option Statement)) → Except Cause (Option Statement)
  | [] => .ok none
  | .ok none :: rest => firstAnswer rest
  | answer :: _ => answer

theorem firstAnswer_cons (answer : Except Cause (Option Statement))
    (rest : List (Except Cause (Option Statement))) :
    firstAnswer (answer :: rest) = if answer = .ok none then firstAnswer rest else answer := by
  match answer with
  | .ok none => rfl
  | .ok (some s) => rfl
  | .error cause => rfl

/-- Where at most one is an answer, their order does not matter. -/
theorem firstAnswer_of_perm {answers others : List (Except Cause (Option Statement))}
    (hperm : answers.Perm others)
    (hone : answers.Pairwise fun a b => a = .ok none ∨ b = .ok none) :
    firstAnswer answers = firstAnswer others := by
  induction hperm with
  | nil => rfl
  | cons answer _ ih =>
    rw [firstAnswer_cons, firstAnswer_cons, ih (List.pairwise_cons.1 hone).2]
  | swap a b rest =>
    have hab := List.rel_of_pairwise_cons hone List.mem_cons_self
    rw [firstAnswer_cons, firstAnswer_cons, firstAnswer_cons, firstAnswer_cons]
    rcases hab with hb | ha
    · rw [if_pos hb, if_pos hb]
    · rw [if_pos ha, if_pos ha]
  | trans hfirst _ ih ih' =>
    have hsymm : ∀ {a b : Except Cause (Option Statement)},
        a = .ok none ∨ b = .ok none → b = .ok none ∨ a = .ok none := Or.symm
    rw [ih hone, ih' ((hfirst.pairwise_iff hsymm).1 hone)]

/-- A declaration has more than one word, a label has one. -/
theorem words_exclusive (ws : List Text) : declarationOf ws = .ok none ∨ labelOf ws = .ok none := by
  match ws with
  | [] => exact .inl rfl
  | [_] => exact .inl rfl
  | _ :: _ :: _ => exact .inr rfl

/-- The first word of a declaration and of a label is a symbol. -/
theorem words_of_not_symbol {ws : List Text} (h : ∀ name ∈ ws.head?, name.isSymbol = false) :
    declarationOf ws = .ok none ∧ labelOf ws = .ok none := by
  match ws with
  | [] => exact ⟨rfl, rfl⟩
  | [name] =>
    rw [labelOf, h name rfl]
    exact ⟨rfl, rfl⟩
  | name :: keyword :: values =>
    rw [declarationOf, h name rfl, Bool.and_false]
    exact ⟨rfl, rfl⟩

theorem ofWords_of_attempts (ws : List Text) : ofWords ws = firstAnswer [declarationOf ws, labelOf ws] := by
  match ws with
  | [] => rfl
  | [name] =>
    rw [ofWords, labelOf]
    cases name.isSymbol <;> rfl
  | name :: keyword :: values =>
    rw [ofWords, declarationOf]
    split
    · cases readValues (Text.join " " values) <;> rfl
    · rfl

/-- **One form at most**: of two attempts one comes to nothing. -/
theorem attempts_exclusive (line : Text) :
    [asInstruction line, asDeclaration line, asLabel line].Pairwise
      fun a b => a = .ok none ∨ b = .ok none := by
  have hfirst : asInstruction line = .ok none ∨
      (asDeclaration line = .ok none ∧ asLabel line = .ok none) := by
    by_cases hsymbol : ∃ name ∈ line.words.head?, name.isSymbol = true
    · obtain ⟨name, hhead, hname⟩ := hsymbol
      obtain ⟨ws, hwords⟩ := List.head?_eq_some_iff.1 hhead
      apply Or.inl
      rw [asInstruction, classify_of_words hname hwords]
      rfl
    · apply Or.inr
      apply words_of_not_symbol
      intro name hhead
      rw [← Bool.not_eq_true]
      intro hname
      exact hsymbol ⟨name, hhead, hname⟩
  rw [List.pairwise_cons, List.pairwise_pair, List.forall_mem_cons, List.forall_mem_singleton]
  rcases hfirst with h | ⟨h, h'⟩
  · exact ⟨⟨.inl h, .inl h⟩, words_exclusive line.words⟩
  · exact ⟨⟨.inr h, .inr h'⟩, words_exclusive line.words⟩

/-- **In any order** the attempts come to what is read. -/
theorem read_of_attempts {attempts : List (Text → Except Cause (Option Statement))}
    (hperm : attempts.Perm [asInstruction, asDeclaration, asLabel]) (line : Text) :
    read line = firstAnswer (attempts.map fun attempt => attempt line) := by
  have hanswers := hperm.symm.map fun attempt => attempt line
  rw [← firstAnswer_of_perm hanswers (attempts_exclusive line)]
  show read line = firstAnswer [asInstruction line, asDeclaration line, asLabel line]
  rw [read, asInstruction]
  cases Catalog.standard.classify line with
  | error e => rfl
  | ok found =>
    cases found with
    | some answer => rfl
    | none => exact ofWords_of_attempts line.words

end Statement

end Minicore
