/-
  FRESH NAMES — no two places of generated code have the same name.

  Problem: temporaries and labels are numbered while the tree is walked; branches and loads find their
  places by name alone, so one name given twice would send them astray.

  1. **Stems** — what stands before the first underscore tells the kind of a name (`Text.stem`), and
     within a kind names are injective (`Cell.name_injective`, `Label.name_injective`).

  2. **Invariant** — a derivation that takes the counters from `n₀` to `n₁` emits exactly the
     temporaries between (`Numbered`) and labels with numbers between, none twice (`Marked`).

  3. **Crux** — a conditional and a loop put their own labels AROUND the labels of the nodes in them;
     up to order they come before them, and the order does not matter (`Labelled.around`).
-/
import Minicore.Proofs.Assembly.Statements
import Minicore.Proofs.Codegen.Derivation
import Minicore.Proofs.Text.Numerals

namespace Minicore

/-! ## Kinds of names -/

/-- What stands before the first underscore. -/
def Text.stem (t : Text) : Text := t.takeWhile fun c => c != '_'

theorem Text.stem_append {w : Text} (hw : w.all (fun c => c != '_') = true) (t : Text) :
    stem (w ++ '_' :: t) = w := by
  have hpos : ∀ c ∈ w, (c != '_') = true := List.all_eq_true.1 hw
  rw [stem, List.takeWhile_append_of_pos hpos, List.takeWhile_cons]
  simp

/-- No reserved word has an underscore. -/
theorem Text.isSymbol_of_underscore {t : Text} (h : t.isIdentifier = true) (hu : '_' ∈ t) :
    t.isSymbol = true := by
  have hfree : ∀ r : Text, '_' ∉ r → t ≠ r := by
    rintro r hr rfl
    exact hr hu
  have hkeyword : (t == dataKeyword) = false := by
    rw [beq_eq_false_iff_ne]
    exact hfree _ (by decide)
  have hregister : Register.ofName? t = none := by
    rw [Option.eq_none_iff_forall_not_mem]
    intro r hr
    have hname := Register.ofName?_eq_some_iff.1 hr
    exact hfree r.name (by cases r <;> decide) hname
  have hmnemonic : Mnemonic.ofName? t = none := by
    rw [Option.eq_none_iff_forall_not_mem]
    intro m hm
    have hname := Mnemonic.ofName?_eq_some_iff.1 hm
    exact hfree m.name (by cases m <;> decide) hname
  rw [isSymbol, isReserved, h, hkeyword, hregister, hmnemonic]
  rfl

/-- A word in front of an identifier or a number makes an identifier. -/
theorem Text.isSymbol_prefixed {w t : Text} (hw : w.isIdentifier = true) (hu : '_' ∈ w)
    (ht : t.all continuesIdentifier = true) : (w ++ t).isSymbol = true := by
  refine isSymbol_of_underscore ?_ (List.mem_append_left _ hu)
  cases w with
  | nil => cases hw
  | cons c w =>
    rw [isIdentifier, Bool.and_eq_true] at hw
    rw [List.cons_append, isIdentifier, hw.1, List.all_append, hw.2, ht]
    rfl

namespace Cell

/-- A cell whose name can be written: the name of a variable is an identifier. -/
def proper : Cell → Bool
  | .var x => x.isIdentifier
  | _ => true

theorem isSymbol_name {c : Cell} (h : c.proper = true) : c.name.isSymbol = true := by
  cases c with
  | temp n => exact Text.isSymbol_prefixed (by decide) (by decide) Numeral.continues_of_mem_decimal
  | var x => exact Text.isSymbol_prefixed (by decide) (by decide) (Text.all_continues_of_isIdentifier h)
  | zero => decide
  | one => decide

theorem stem_temp (n : Nat) : (Cell.temp n).name.stem = "temp".toList :=
  Text.stem_append (w := "temp".toList) (by decide) _

theorem stem_var (x : Text) : (Cell.var x).name.stem = "var".toList :=
  Text.stem_append (w := "var".toList) (by decide) _

/-- Different cells have different names. -/
theorem name_injective {c d : Cell} (h : c.name = d.name) : c = d := by
  have hstem := congrArg Text.stem h
  have hzero : Cell.zero.name.stem = "const".toList := by decide
  have hone : Cell.one.name.stem = "const".toList := by decide
  -- names of different kinds differ before the first underscore
  cases c with
  | temp m =>
    cases d with
    | temp n => rw [Numeral.decimal_injective (List.append_cancel_left h)]
    | var y => rw [stem_temp, stem_var] at hstem; exact absurd hstem (by decide)
    | zero => rw [stem_temp, hzero] at hstem; exact absurd hstem (by decide)
    | one => rw [stem_temp, hone] at hstem; exact absurd hstem (by decide)
  | var x =>
    cases d with
    | temp n => rw [stem_temp, stem_var] at hstem; exact absurd hstem (by decide)
    | var y => rw [List.append_cancel_left h]
    | zero => rw [stem_var, hzero] at hstem; exact absurd hstem (by decide)
    | one => rw [stem_var, hone] at hstem; exact absurd hstem (by decide)
  | zero =>
    cases d with
    | temp n => rw [stem_temp, hzero] at hstem; exact absurd hstem (by decide)
    | var y => rw [stem_var, hzero] at hstem; exact absurd hstem (by decide)
    | zero => rfl
    | one => exact absurd h (by decide)
  | one =>
    cases d with
    | temp n => rw [stem_temp, hone] at hstem; exact absurd hstem (by decide)
    | var y => rw [stem_var, hone] at hstem; exact absurd hstem (by decide)
    | zero => exact absurd h (by decide)
    | one => rfl

end Cell

theorem stem_tableName (x : Text) : (tableName x).stem = "tab".toList :=
  Text.stem_append (w := "tab".toList) (by decide) _

theorem tableName_injective {x y : Text} (h : tableName x = tableName y) : x = y :=
  List.append_cancel_left h

theorem isSymbol_tableName {x : Text} (h : x.all Text.continuesIdentifier = true) :
    (tableName x).isSymbol = true :=
  Text.isSymbol_prefixed (by decide) (by decide) h

/-- The stems of the roles differ. -/
theorem LabelRole.stem_injective {r s : LabelRole} (h : r.word.dropLast = s.word.dropLast) : r = s := by
  have hall : ∀ r ∈ [LabelRole.alternative, .endIf, .loop, .endLoop, .holds, .join],
      ∀ s ∈ [LabelRole.alternative, .endIf, .loop, .endLoop, .holds, .join],
        r.word.dropLast = s.word.dropLast → r = s := by decide
  exact hall r (by cases r <;> decide) s (by cases s <;> decide) h

namespace Label

theorem isSymbol_name (l : Label) : l.name.isSymbol = true := by
  refine Text.isSymbol_prefixed ?_ ?_ Numeral.continues_of_mem_decimal
  · cases l.role <;> decide
  · cases l.role <;> decide

/-- The stem of a label is the word of its role without the underscore. -/
theorem stem_name (l : Label) : l.name.stem = l.role.word.dropLast := by
  obtain ⟨role, n⟩ := l
  have hword : role.word = role.word.dropLast ++ ['_'] := by cases role <;> decide
  have hname : Label.name ⟨role, n⟩ = role.word.dropLast ++ '_' :: Numeral.decimal n := by
    show role.word ++ Numeral.decimal n = _
    conv => lhs; rw [hword]
    rw [List.append_assoc]
    rfl
  rw [hname]
  exact Text.stem_append (by cases role <;> decide) _

/-- Different labels have different names. -/
theorem name_injective {l m : Label} (h : l.name = m.name) : l = m := by
  have hstem := congrArg Text.stem h
  rw [stem_name, stem_name] at hstem
  obtain ⟨r, j⟩ := l
  obtain ⟨s, k⟩ := m
  obtain rfl : r = s := LabelRole.stem_injective hstem
  have hnumber : j = k := Numeral.decimal_injective (List.append_cancel_left h)
  rw [hnumber]

end Label

/-! ## Temporaries -/

/-- From `n₀` to `n₁` exactly the temporaries of `e` are numbered, one after another. -/
def Numbered (n₀ n₁ : Names) (e : Emission) : Prop :=
  n₁.temps = n₀.temps + e.temps.length ∧
    e.temps.map Prod.fst = List.range' (n₀.temps + 1) e.temps.length

namespace Numbered

variable {n₀ n₁ n₂ : Names} {a b e : Emission}

theorem le (h : Numbered n₀ n₁ e) : n₀.temps ≤ n₁.temps := by
  rw [h.1]
  omega

/-- A contribution without temporaries numbers none. -/
theorem of_nil (ht : e.temps = []) (hn : n₁.temps = n₀.temps) : Numbered n₀ n₁ e := by
  refine ⟨?_, ?_⟩
  · rw [ht, hn, List.length_nil, Nat.add_zero]
  · rw [ht]
    rfl

theorem of_single {v : UInt16} (ht : e.temps = [(n₀.temps + 1, v)]) (hn : n₁.temps = n₀.temps + 1) :
    Numbered n₀ n₁ e := by
  refine ⟨?_, ?_⟩
  · rw [ht, hn, List.length_singleton]
  · rw [ht]
    rfl

theorem append (ha : Numbered n₀ n₁ a) (hb : Numbered n₁ n₂ b) : Numbered n₀ n₂ (a ++ b) := by
  obtain ⟨hla, hma⟩ := ha
  obtain ⟨hlb, hmb⟩ := hb
  refine ⟨?_, ?_⟩
  · rw [Emission.temps_append, List.length_append, hlb, hla]
    omega
  · rw [Emission.temps_append, List.map_append, List.length_append, hma, hmb, hla,
      show n₀.temps + a.temps.length + 1 = n₀.temps + 1 + a.temps.length by omega,
      List.range'_append_1]

/-- The temporaries between two counters. -/
theorem mem_iff (h : Numbered n₀ n₁ e) (k : Nat) :
    k ∈ e.temps.map Prod.fst ↔ n₀.temps < k ∧ k ≤ n₁.temps := by
  rw [h.2, List.mem_range'_1, h.1]
  omega

theorem nodup (h : Numbered n₀ n₁ e) : (e.temps.map Prod.fst).Nodup := by
  rw [h.2]
  exact List.nodup_range'

end Numbered

theorem ExpressionCode.numbered {n : Node} {n₀ n₁ : Names} {c : Cell} {e : Emission}
    {ks : List (Nat × UInt16)} (h : ExpressionCode n n₀ c n₁ e ks) : Numbered n₀ n₁ e := by
  induction h with
  | ident _ => exact .of_nil rfl rfl
  | intLit _ => exact .of_single rfl rfl
  | binary _ _ ihl ihr => exact ihl.append (ihr.append (.of_single rfl rfl))

theorem StatementCode.numbered {n : Node} {n₀ n₁ : Names} {e : Emission} {ks : List (Nat × UInt16)}
    (h : StatementCode n n₀ n₁ e ks) : Numbered n₀ n₁ e := by
  -- only expressions take temporaries; everything between them takes none
  induction h with
  | nil => exact .of_nil rfl rfl
  | cons _ _ ihs ihss => exact ihs.append ihss
  | assign _ _ hc => exact hc.numbered.append (.of_nil rfl rfl)
  | tableInit _ _ _ => exact .of_nil rfl rfl
  | tableAssign hi hv => exact hi.numbered.append (hv.numbered.append (.of_nil rfl rfl))
  | wait _ => exact .of_nil rfl rfl
  | ifThen _ hc _ ih =>
    exact hc.numbered.append (.append (.of_nil rfl rfl) (ih.append (.of_nil rfl rfl)))
  | ifElse hc _ _ ihss ihts =>
    exact hc.numbered.append (.append (.of_nil rfl rfl)
      (ihss.append (.append (.of_nil rfl rfl) (ihts.append (.of_nil rfl rfl)))))
  | whileLoop hc _ ih =>
    exact .append (.of_nil rfl rfl)
      (hc.numbered.append (.append (.of_nil rfl rfl) (ih.append (.of_nil rfl rfl))))
  | exprStmt hc => exact hc.numbered

/-- The constants of an expression are among its temporaries, in order. -/
theorem ExpressionCode.constants {n : Node} {n₀ n₁ : Names} {c : Cell} {e : Emission}
    {ks : List (Nat × UInt16)} (h : ExpressionCode n n₀ c n₁ e ks) : ks.Sublist e.temps := by
  induction h with
  | ident _ => exact .slnil
  | intLit _ => exact .refl _
  | @binary op left right n₀ n₁ n₂ l r a b ks ls _ _ ihl ihr =>
    rw [Emission.temps_append, Emission.temps_append]
    exact ihl.append (ihr.trans (List.sublist_append_left _ _))

theorem StatementCode.constants {n : Node} {n₀ n₁ : Names} {e : Emission} {ks : List (Nat × UInt16)}
    (h : StatementCode n n₀ n₁ e ks) : ks.Sublist e.temps := by
  induction h with
  | nil => exact .slnil
  | cons _ _ ihs ihss => exact ihs.append ihss
  | assign _ _ hc => exact hc.constants.trans (List.sublist_append_left _ _)
  | tableInit _ _ _ => exact .slnil
  | tableAssign hi hv =>
    exact hi.constants.append (hv.constants.trans (List.sublist_append_left _ _))
  | wait _ => exact .slnil
  | ifThen _ hc _ ih =>
    exact hc.constants.append (ih.trans (List.sublist_append_left _ _))
  | @ifElse _ _ _ _ _ _ _ _ _ a b d ks ls ms hc _ _ ihss ihts =>
    have hd : ms.Sublist (d.temps ++ []) := ihts.trans (List.sublist_append_left _ _)
    exact hc.constants.append (ihss.append hd)
  | whileLoop hc _ ih =>
    exact hc.constants.append (ih.trans (List.sublist_append_left _ _))
  | exprStmt hc => exact hc.constants

/-! ## Labels -/

/-- No label comes twice, and all have numbers above `lo` up to `hi`. -/
def Marked (lo hi : Nat) (ls : List Label) : Prop :=
  ls.Nodup ∧ ∀ l ∈ ls, lo < l.number ∧ l.number ≤ hi

namespace Marked

variable {lo mid hi : Nat} {as bs : List Label}

theorem nil : Marked lo hi [] := ⟨List.nodup_nil, fun _ hl => nomatch hl⟩

/-- Stretches of labels whose numbers do not overlap. -/
theorem append (ha : Marked lo mid as) (hb : Marked mid hi bs) (hlo : lo ≤ mid) (hhi : mid ≤ hi) :
    Marked lo hi (as ++ bs) := by
  refine ⟨List.nodup_append.2 ⟨ha.1, hb.1, ?_⟩, ?_⟩
  · rintro l hl m hm rfl
    have h₁ := ha.2 l hl
    have h₂ := hb.2 l hm
    omega
  · intro l hl
    rcases List.mem_append.1 hl with hl | hl
    · have := ha.2 l hl
      omega
    · have := hb.2 l hl
      omega

/-- Different roles with one new number. -/
theorem group {roles : List LabelRole} (h : roles.Nodup) (n : Nat) :
    Marked n (n + 1) (roles.map fun r => ⟨r, n + 1⟩) := by
  refine ⟨List.Pairwise.map _ (fun r s hrs heq => hrs (congrArg Label.role heq)) h, fun l hl => ?_⟩
  obtain ⟨r, -, rfl⟩ := List.mem_map.1 hl
  exact ⟨Nat.lt_succ_self n, Nat.le_refl _⟩

end Marked

/-- The label counter goes from `lo` to `hi`, and the names in these statements are those of labels
    with the numbers between, in whatever order. -/
def Labelled (lo hi : Nat) (ss : List Statement) : Prop :=
  lo ≤ hi ∧ ∃ ls, Marked lo hi ls ∧ (ls.map Label.name).Perm (Statement.names ss)

namespace Labelled

variable {lo mid hi : Nat} {ss ts : List Statement}

theorem of_nil (h : Statement.names ss = []) : Labelled lo lo ss :=
  ⟨Nat.le_refl _, [], .nil, by rw [h]; exact .refl _⟩

theorem append (hs : Labelled lo mid ss) (ht : Labelled mid hi ts) : Labelled lo hi (ss ++ ts) := by
  obtain ⟨hlo, as, hma, hna⟩ := hs
  obtain ⟨hhi, bs, hmb, hnb⟩ := ht
  refine ⟨Nat.le_trans hlo hhi, as ++ bs, hma.append hmb hlo hhi, ?_⟩
  rw [Statement.names_append, List.map_append]
  exact hna.append hnb

/-- A new number comes first, wherever its labels stand. -/
theorem around (roles : List LabelRole) (hr : roles.Nodup) (h : Labelled (lo + 1) hi ss)
    (hp : ((roles.map fun r => Label.name ⟨r, lo + 1⟩) ++ Statement.names ss).Perm
      (Statement.names ts)) : Labelled lo hi ts := by
  obtain ⟨hle, as, hma, hna⟩ := h
  refine ⟨by omega, _, (Marked.group hr lo).append hma (by omega) hle, ?_⟩
  rw [List.map_append, List.map_map]
  exact (hna.append_left _).trans hp

/-- No name comes twice, and each is that of a label with a number between. -/
theorem nodup (h : Labelled lo hi ss) : (Statement.names ss).Nodup := by
  obtain ⟨-, ls, hm, hn⟩ := h
  exact hn.nodup_iff.1 (List.Pairwise.map _ (fun l m hlm heq => hlm (Label.name_injective heq)) hm.1)

theorem exists_label (h : Labelled lo hi ss) {x : Text} (hx : x ∈ Statement.names ss) :
    ∃ l : Label, x = l.name := by
  obtain ⟨-, ls, -, hn⟩ := h
  obtain ⟨l, -, rfl⟩ := List.mem_map.1 (hn.mem_iff.2 hx)
  exact ⟨l, rfl⟩

end Labelled

/-- The labels of a comparison are new. -/
theorem labelled_operatorCode (op : Operator) (n : Nat) :
    Labelled n (n + op.labels) (operatorCode op (n + 1)) := by
  have hcompare : ∀ jump : Opcode, Labelled n (n + 1) (Code.compare jump (n + 1)) := fun jump =>
    .around [.holds, .join] (by decide) (.of_nil rfl : Labelled (n + 1) (n + 1) []) (.refl _)
  cases op with
  | add => exact .of_nil rfl
  | sub => exact .of_nil rfl
  | mul => exact .of_nil rfl
  | eq => exact hcompare .beq
  | lt => exact hcompare .bcc

theorem ExpressionCode.labelled {n : Node} {n₀ n₁ : Names} {c : Cell} {e : Emission}
    {ks : List (Nat × UInt16)} (h : ExpressionCode n n₀ c n₁ e ks) :
    Labelled n₀.labels n₁.labels e.body := by
  induction h with
  | ident _ => exact .of_nil rfl
  | intLit _ => exact .of_nil rfl
  | @binary op left right n₀ n₁ n₂ l r a b ks ls _ _ ihl ihr =>
    have hloads : Labelled n₂.labels n₂.labels (Code.load0 l) := .of_nil rfl
    have hload : Labelled n₂.labels n₂.labels (Code.load3 r) := .of_nil rfl
    have hstore : Labelled (n₂.labels + op.labels) (n₂.labels + op.labels)
        (Code.store (.temp (n₂.temps + 1))) := .of_nil rfl
    exact ihl.append (ihr.append
      (hloads.append (hload.append ((labelled_operatorCode op n₂.labels).append hstore))))

theorem names_test (c : Cell) (jump : Opcode) (l : Label) :
    Statement.names (Emission.code (Code.test c ++ [Code.branch jump l])).body = [] := rfl

theorem names_jump (jump : Opcode) (l m : Label) :
    Statement.names (Emission.code [Code.branch jump l, Code.mark m]).body = [m.name] := rfl

theorem names_mark (l : Label) : Statement.names (Emission.code [Code.mark l]).body = [l.name] := rfl

theorem StatementCode.labelled {n : Node} {n₀ n₁ : Names} {e : Emission} {ks : List (Nat × UInt16)}
    (h : StatementCode n n₀ n₁ e ks) : Labelled n₀.labels n₁.labels e.body := by
  induction h with
  | nil => exact .of_nil rfl
  | cons _ _ ihs ihss => exact ihs.append ihss
  | assign _ _ hc => exact hc.labelled.append (.of_nil rfl)
  | tableInit _ _ _ => exact .of_nil rfl
  | tableAssign hi hv => exact hi.labelled.append (hv.labelled.append (.of_nil rfl))
  | wait _ => exact .of_nil rfl
  | ifThen _ hc _ ih =>
    refine hc.labelled.append (.around [.endIf] (by decide) ih ?_)
    simp only [Emission.body_append, Statement.names_append, names_test, names_jump, List.nil_append]
    exact List.perm_append_comm
  | ifElse hc _ _ ihss ihts =>
    refine hc.labelled.append (.around [.alternative, .endIf] (by decide) (ihss.append ihts) ?_)
    simp only [Emission.body_append, Statement.names_append, names_test, names_jump, names_mark,
      List.nil_append, List.map_cons, List.map_nil]
    -- one label moves behind the consequence, the other behind the alternative
    rw [List.perm_iff_count]
    intro x
    simp only [List.count_append, List.count_cons, List.count_nil]
    omega
  | whileLoop hc _ ih =>
    refine .around [.loop, .endLoop] (by decide) (hc.labelled.append ih) ?_
    simp only [Emission.body_append, Statement.names_append, names_test, names_jump, names_mark,
      List.nil_append, List.map_cons, List.map_nil]
    rw [List.perm_iff_count]
    intro x
    simp only [List.count_append, List.count_cons, List.count_nil]
    omega
  | exprStmt hc => exact hc.labelled

end Minicore
