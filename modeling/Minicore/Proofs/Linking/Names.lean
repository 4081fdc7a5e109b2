/-
  NAMES — what can be declared can be referred to, and the other way round.

  Problem: a line uses a name in one of four ways: alone as a label, before the word for data, behind a
  branch, or behind a `#`.  Each way is read along a path of its own, and the generator has a check of its
  own for the names in a tree.  Were one of them stricter than another, a name could be declared and never
  resolved.

  1. **Usages** — a `Usage` is one of the four with all that stands around the name; for a declaration that
     is the word for data with any list of words.  It `Takes` a name whose line reads as the statement that
     is meant, with this very name.

  2. **Specification** — the names are those that the generator's check lets through, without the
     `reservedWords`.  `Generated` has one rule for each kind of name that the generator makes, and no
     program defines any other (`StatementCode.generated_names`).

  3. **Crux** — whatever a line reads as, the names in it are symbols (`isSymbol_of_mentions`); and every
     usage takes every symbol (`Usage.takes_of_isSymbol`).  So all of them take the same names.
-/
import Minicore.Proofs.Assembly.Grammar
import Minicore.Proofs.Assembly.Outcome
import Minicore.Proofs.Codegen.Readable

namespace Minicore

/-! ## The names -/

/-- The words that are no names: the word for data, the registers and the mnemonics. -/
def reservedWords : List Text :=
  dataKeyword :: (Register.all.map Register.name ++ Mnemonic.all.map Mnemonic.name)

theorem Text.isReserved_iff {t : Text} : t.isReserved = true ↔ t ∈ reservedWords := by
  have hregister : (Register.ofName? t).isSome = true ↔ t ∈ Register.all.map Register.name := by
    rw [Register.ofName?, List.find?_isSome, List.mem_map]
    simp only [beq_iff_eq]
  have hmnemonic : (Mnemonic.ofName? t).isSome = true ↔ t ∈ Mnemonic.all.map Mnemonic.name := by
    rw [Mnemonic.ofName?, List.find?_isSome, List.mem_map]
    simp only [beq_iff_eq]
  rw [isReserved, Bool.or_eq_true, Bool.or_eq_true, beq_iff_eq, hregister, hmnemonic, reservedWords,
    List.mem_cons, List.mem_append, or_assoc]

/-- The generator's check lets the name through. -/
def Gen.LetsThrough (x : Text) : Prop :=
  ∃ (names : Names) (y : Text), (Gen.identifier x names).result = .ok y

theorem Gen.letsThrough_iff {x : Text} : LetsThrough x ↔ x.isIdentifier = true := by
  unfold LetsThrough Gen.identifier
  constructor
  · rintro ⟨names, y, h⟩
    split at h
    · assumption
    · cases h
  · intro h
    rw [if_pos h]
    exact ⟨Names.fresh, x, rfl⟩

/-- A symbol is a name that the check lets through and that is not reserved. -/
theorem Text.isSymbol_iff {x : Text} : x.isSymbol = true ↔ Gen.LetsThrough x ∧ x ∉ reservedWords := by
  rw [isSymbol, Bool.and_eq_true, Bool.not_eq_true', Gen.letsThrough_iff, ← Bool.not_eq_true,
    isReserved_iff]

/-- The names that the generator makes. -/
inductive Generated : Text → Prop
  /-- A variable of the tree. -/
  | var {x : Text} : Gen.LetsThrough x → Generated (Cell.var x).name
  /-- A table of the tree. -/
  | table {x : Text} : Gen.LetsThrough x → Generated (tableName x)
  /-- A temporary. -/
  | temp (number : Nat) : Generated (Cell.temp number).name
  /-- The constant zero. -/
  | zero : Generated Cell.zero.name
  /-- The constant one. -/
  | one : Generated Cell.one.name
  /-- A branch target, of any role. -/
  | label (l : Label) : Generated l.name
  /-- The end of the program. -/
  | halt : Generated haltName

/-- Generated names are symbols: all but the last have an underscore, and no reserved word has. -/
theorem Generated.isSymbol {x : Text} (h : Generated x) : x.isSymbol = true := by
  cases h with
  | @var x hx => exact Cell.isSymbol_name (c := .var x) (Gen.letsThrough_iff.1 hx)
  | table hx => exact isSymbol_tableName (Text.all_continues_of_isIdentifier (Gen.letsThrough_iff.1 hx))
  | temp number => exact Cell.isSymbol_name (c := .temp number) rfl
  | zero => exact Cell.isSymbol_name (c := .zero) rfl
  | one => exact Cell.isSymbol_name (c := .one) rfl
  | label l => exact l.isSymbol_name
  | halt => decide

/-- **No rule is missing**: every name that the code of a statement defines, with the halt loop and the
    declarations behind it, is generated. -/
theorem StatementCode.generated_names {n : Node} {n₀ n₁ : Names} {e : Emission}
    {ks : List (Nat × UInt16)} (h : StatementCode n n₀ n₁ e ks) :
    ∀ x ∈ Statement.names e.program, Generated x := by
  have hdeclared : ∀ d ∈ e.declarations, Gen.LetsThrough d.name := fun d hd =>
    Gen.letsThrough_iff.2 (h.isIdentifier_declared d hd)
  have hfixed : ∀ x ∈ [haltName, Cell.one.name, Cell.zero.name], Generated x :=
    List.forall_mem_cons.2 ⟨.halt, List.forall_mem_cons.2 ⟨.one, List.forall_mem_singleton.2 .zero⟩⟩
  rw [names_program]
  intro x hx
  simp only [List.mem_append] at hx
  rcases hx with hbody | hhalt | htemps | htables | hvars
  · obtain ⟨l, rfl⟩ := h.labelled.exists_label hbody
    exact .label l
  · exact hfixed x hhalt
  · obtain ⟨t, -, rfl⟩ := List.mem_map.1 htemps
    exact .temp t.1
  · obtain ⟨d, hd, rfl⟩ := mem_keys_tables htables
    exact .table (hdeclared d hd)
  · obtain ⟨d, hd, rfl⟩ := mem_varNames hvars
    exact .var (hdeclared d hd)

/-! ## The usages -/

/-- A list of words as it is declared: the word for data alone, or with literals of 16 bits between
    commas; with any blanks at its ends. -/
structure DataList where
  text : Text
  elements : List Text
  values : List UInt16
  introduced : Text.Introduces dataKeyword text.trim elements
  written : List.Forall₂ (fun (e : Text) (v : UInt16) => Literal.Writes e.trim v.toNat) elements values

/-- A way to use a name in a line. -/
inductive Usage where
  /-- Alone, as a label. -/
  | label
  /-- Before a list that is declared under it. -/
  | declaration (list : DataList)
  /-- Behind a branch, as its target. -/
  | target
  /-- Behind a `#`, as an address. -/
  | address

namespace Usage

/-- The line with the name in it. -/
def line (x : Text) : Usage → Text
  | .label => x
  | .declaration list => x ++ ' ' :: list.text
  | .target => "B ".toList ++ x
  | .address => "MOV R1, #".toList ++ x

/-- What the line is meant to say. -/
def statement (x : Text) : Usage → Statement
  | .label => .label x
  | .declaration list => .data x list.values
  | .target => .code .b (some (.symbol x))
  | .address => .code .mov1 (some (.symbol x))

/-- The line says what it is meant to. -/
def Takes (u : Usage) (x : Text) : Prop := Statement.read (u.line x) = .ok (some (u.statement x))

end Usage

/-! ## Names in a line are symbols -/

/-- A slot that is filled with a name is filled with a symbol. -/
theorem Slot.Spelled.isSymbol {slot : Slot} {token x : Text}
    (h : slot.Spelled token (some (.symbol x))) : x.isSymbol = true := by
  cases h with
  | address hsymbol => exact hsymbol
  | label hsymbol => exact hsymbol

namespace Catalog

variable {x : Text}

theorem isSymbol_of_operands {slots : List Slot} {operands : List (Text × Option Param)}
    (h : List.Forall₂ (fun (s : Slot) d => s.Spelled d.1.trim d.2) slots operands) :
    ∀ d ∈ operands, d.2 = some (.symbol x) → x.isSymbol = true := by
  induction h with
  | nil => exact List.forall_mem_nil _
  | cons hslot _ ih =>
    refine List.forall_mem_cons.2 ⟨fun hsymbol => ?_, ih⟩
    rw [hsymbol] at hslot
    exact hslot.isSymbol

/-- The parameter of an instruction is a number or a symbol. -/
theorem isSymbol_of_classify {c : Catalog} {line : Text} {op : Opcode}
    (h : c.classify line = .ok (some ⟨op, some (.symbol x)⟩)) : x.isSymbol = true := by
  obtain ⟨p, -, -, operands, -, hspelled, hparam⟩ := classify_eq_some_iff_accepts.1 h
  obtain ⟨d, hd, hsymbol⟩ := List.exists_of_findSome?_eq_some hparam.symm
  exact isSymbol_of_operands hspelled d hd hsymbol

end Catalog

namespace Statement

variable {line x : Text}

/-- The statement defines the name, or refers to it. -/
def Mentions (s : Statement) (x : Text) : Prop := s.name? = some x ∨ s.reference? = some x

/-- **Names in a line** are symbols, whatever the line says. -/
theorem isSymbol_of_mentions {s : Statement} (h : read line = .ok (some s)) (hx : s.Mentions x) :
    x.isSymbol = true := by
  rcases hx with hname | hreference
  · cases read_eq_iff.1 h with
    | instruction _ => cases hname
    | declaration hdeclares _ =>
      obtain rfl := Option.some.inj hname
      exact hdeclares.1
    | label hsymbol =>
      obtain rfl := Option.some.inj hname
      exact hsymbol
  · obtain ⟨op, rfl⟩ := reference?_eq_some_iff.1 hreference
    cases read_eq_iff.1 h with
    | instruction hclassify => exact Catalog.isSymbol_of_classify hclassify

/-! ## Symbols are taken everywhere -/

/-- A symbol and a list are a declaration. -/
theorem declares_of_dataList (hx : x.isSymbol = true) (list : DataList) :
    Declares (Text.trim (x ++ ' ' :: list.text)) x list.elements := by
  obtain ⟨b, b', hb, hb', hlist⟩ := Text.exists_trim list.text
  -- the list starts with the word for data, so it is more than blanks
  have hne : list.text.trim ≠ [] := by
    obtain ⟨rest, hrest⟩ := list.introduced.exists_append
    rw [hrest]
    exact List.cons_ne_nil _ _
  have hend : (b ++ list.text.trim).trimEnd = b ++ list.text.trim := by
    have hlast := (Text.ends_trim list.text).2
    have hnot : ¬ list.text.trim.blank = true := by
      rw [← Text.trimEnd_eq_nil_iff, hlast]
      exact hne
    rw [Text.trimEnd_append, if_neg hnot, hlast]
  obtain ⟨hstart, hstop⟩ := trim_solid_cons (Text.solid_of_isSymbol hx) (Text.ne_nil_of_isSymbol hx)
    (List.append_ne_nil_of_right_ne_nil b hne) hend
  have hline : Text.trim (x ++ ' ' :: list.text) = x ++ (' ' :: b ++ list.text.trim) := by
    have hsplit : x ++ ' ' :: list.text = x ++ ' ' :: (b ++ list.text.trim) ++ b' := by
      conv => lhs; rw [hlist]
      simp only [List.append_assoc, List.cons_append]
    rw [hsplit, Text.trim_append hb', Text.trim_eq_self hstart hstop]
    rfl
  have hgap : Text.blank (' ' :: b) = true := by
    rw [Text.blank, List.all_cons, ← Text.blank, hb]
    decide
  exact ⟨hx, ' ' :: b, list.text.trim, hline, List.cons_ne_nil _ _, hgap, list.introduced⟩

end Statement

namespace Usage

variable {x : Text}

theorem takes_of_isSymbol (u : Usage) (hx : x.isSymbol = true) : u.Takes x := by
  cases u with
  | label => exact Statement.read_label (b := []) rfl hx
  | declaration list =>
    have hread := Statement.read_of_declares (Statement.declares_of_dataList hx list)
    rw [Statement.readElements_eq_ok_iff.2 list.written] at hread
    exact hread
  | target =>
    have hreadable : (Statement.code .b (some (.symbol x))).Readable :=
      Code.readable_branch (by decide) hx
    have hread := Statement.read_text (b := []) hreadable rfl
    have htext : (Statement.code .b (some (.symbol x))).text = "B ".toList ++ x := by
      show "B ".toList ++ Text.join ", " [x] = _
      rw [Text.join_singleton]
    rwa [htext] at hread
  | address =>
    have hreadable : (Statement.code .mov1 (some (.symbol x))).Readable := Code.readable_mov1 hx
    have hread := Statement.read_text (b := []) hreadable rfl
    have htext : (Statement.code .mov1 (some (.symbol x))).text = "MOV R1, #".toList ++ x := by
      show "MOV ".toList ++ Text.join ", " ["R1".toList, '#' :: x] = _
      rw [Text.join_cons_cons, Text.join_singleton]
      rfl
    rwa [htext] at hread

/-- What is meant has the name in it. -/
theorem mentions_statement (u : Usage) (x : Text) : (u.statement x).Mentions x := by
  cases u with
  | label => exact .inl rfl
  | declaration list => exact .inl rfl
  | target => exact .inr rfl
  | address => exact .inr rfl

/-- **One class of names**: a usage takes the symbols, and no other names. -/
theorem takes_iff (u : Usage) : u.Takes x ↔ x.isSymbol = true :=
  ⟨fun h => Statement.isSymbol_of_mentions h (u.mentions_statement x), u.takes_of_isSymbol⟩

end Usage

/-! ## The whole -/

/-- **What can be declared can be referred to**, and conversely.  Of any text, with or without blanks and
    commas: one usage takes it exactly when every other does; those that are taken are the names that the
    generator's check lets through, without the reserved words; and a line that reads as any statement
    with this name in it reads as the one that is meant.  Every generated name is taken by every usage. -/
theorem declarable_iff_referable :
    (∀ (x : Text) (u v : Usage), u.Takes x ↔ v.Takes x) ∧
      (∀ (x : Text) (u : Usage), u.Takes x ↔ Gen.LetsThrough x ∧ x ∉ reservedWords) ∧
      (∀ (x : Text) (u : Usage),
        u.Takes x ↔ ∃ s, Statement.read (u.line x) = .ok (some s) ∧ s.Mentions x) ∧
      ∀ x, Generated x → ∀ u : Usage, u.Takes x := by
  refine ⟨?_, ?_, ?_, ?_⟩
  · intro x u v
    rw [u.takes_iff, v.takes_iff]
  · intro x u
    rw [u.takes_iff, Text.isSymbol_iff]
  · intro x u
    constructor
    · intro h
      exact ⟨u.statement x, h, u.mentions_statement x⟩
    · rintro ⟨s, hread, hmentions⟩
      exact u.takes_of_isSymbol (Statement.isSymbol_of_mentions hread hmentions)
  · intro x h u
    exact u.takes_of_isSymbol h.isSymbol

/-- A variable that is called like a branch has a name that is taken everywhere, also before a list laid
    out with a tab and blanks behind; the branch itself is taken nowhere. -/
theorem taken_of_branchVariable :
    Generated "var_B".toList ∧
      Statement.read "var_B".toList = .ok (some (.label "var_B".toList)) ∧
      Statement.read "var_B DCB\t0x1 , 0b10\u2003".toList = .ok (some (.data "var_B".toList [1, 2])) ∧
      Statement.read "B var_B".toList = .ok (some (.code .b (some (.symbol "var_B".toList)))) ∧
      Statement.read "MOV R1, #var_B".toList = .ok (some (.code .mov1 (some (.symbol "var_B".toList)))) ∧
      ∀ u : Usage, ¬ u.Takes "B".toList := by
  obtain ⟨-, hclass, -, hgenerated⟩ := declarable_iff_referable
  have hname : Generated "var_B".toList := .var ⟨Names.fresh, "B".toList, rfl⟩
  have hgap : "\t".toList ≠ [] ∧ Text.blank "\t".toList = true := by decide
  have hlist : Text.Introduces dataKeyword (Text.trim "DCB\t0x1 , 0b10\u2003".toList)
      ["0x1 ".toList, " 0b10".toList] :=
    Text.introduces_of_gap hgap.1 hgap.2 "0x1 , 0b10".toList
  have hvalues : List.Forall₂ (fun (e : Text) (v : UInt16) => Literal.Writes e.trim v.toNat)
      ["0x1 ".toList, " 0b10".toList] [1, 2] :=
    .cons (Literal.read_eq_ok_iff.1 rfl) (.cons (Literal.read_eq_ok_iff.1 rfl) .nil)
  refine ⟨hname, hgenerated _ hname .label, hgenerated _ hname (.declaration ⟨_, _, _, hlist, hvalues⟩),
    hgenerated _ hname .target, hgenerated _ hname .address, ?_⟩
  intro u h
  exact ((hclass _ u).1 h).2 (by decide)

end Minicore
