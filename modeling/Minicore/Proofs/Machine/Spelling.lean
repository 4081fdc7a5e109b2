/-
  SPELLING — how literals, operands and lines are written.

  Problem: the readers try one spelling after another, trim, cut and look at first characters.  Whoever
  writes a line wants to know which texts are operands of which kind, and how a line is put together,
  without following a reader.

  1. **Specification** — `Literal.Writes`: a radix mark and a numeral, or a decimal numeral.
     `Slot.Spelled`: the texts that a slot of a pattern demands, each with its parameter.
     `Mnemonic.Spells`: a mnemonic alone, or a mnemonic, blanks, and tokens between commas.

  2. **Operands** — the reader of operands reads exactly these texts (`read_eq_some_iff`), and it refuses
     exactly the numbers that fit no word (`read_eq_error_iff`).

  3. **Lines** — the reader of lines finds the tokens that a line is made of, with the blanks around them
     removed (`Spells.tokens_eq`, `exists_spells`).  The crux is that trimming a text changes its first
     and its last field only, and only by blanks (`fields_trim`).
-/
import Minicore.Proofs.Assembly.Written
import Minicore.Proofs.Text.Notation

namespace Minicore

/-! ## Literals -/

/-- The text writes the number: binary, octal or hexadecimal behind a mark, or decimal without one. -/
inductive Literal.Writes : Text → Nat → Prop
  | binary {t : Text} {n : Nat} : Numeral.Writes 2 t n → Writes ('0' :: 'b' :: t) n
  | octal {t : Text} {n : Nat} : Numeral.Writes 8 t n → Writes ('0' :: 'o' :: t) n
  | hexLower {t : Text} {n : Nat} : Numeral.Writes 16 t n → Writes ('0' :: 'x' :: t) n
  | hexUpper {t : Text} {n : Nat} : Numeral.Writes 16 t n → Writes ('0' :: 'X' :: t) n
  | decimal {t : Text} {n : Nat} : Numeral.Writes 10 t n → Writes t n

/-- A decimal numeral has no mark: behind a zero it has digits only. -/
theorem Numeral.Writes.second_digit {c : Char} {t : Text} {n : Nat}
    (h : Numeral.Writes 10 ('0' :: c :: t) n) : (Numeral.digit? 10 c).isSome = true := by
  obtain ⟨digits, heq | heq, -, values, hvalues, -⟩ := h
  · rw [← heq, List.mapM_cons, List.mapM_cons] at hvalues
    cases hc : Numeral.digit? 10 c with
    | none =>
      rw [hc] at hvalues
      cases hvalues
    | some d => rfl
  · cases heq

namespace Literal

theorem radixAndRest_of_decimal {t : Text} {n : Nat} (h : Numeral.Writes 10 t n) :
    radixAndRest t = (10, t) := by
  have hmark : ∀ c : Char, Numeral.digit? 10 c = none → ∀ u : Text, t ≠ '0' :: c :: u := by
    rintro c hc u rfl
    have hsome := h.second_digit
    rw [hc] at hsome
    cases hsome
  unfold radixAndRest
  split
  · exact absurd rfl (hmark 'b' rfl _)
  · exact absurd rfl (hmark 'o' rfl _)
  · exact absurd rfl (hmark 'x' rfl _)
  · exact absurd rfl (hmark 'X' rfl _)
  · rfl

/-- **Reading a literal**: exactly the literals of 16 bits are read, each as its number. -/
theorem read_eq_ok_iff {t : Text} {w : UInt16} : read t = .ok w ↔ Writes t w.toNat := by
  have hword (radix : Nat) (u : Text) (hr : 0 < radix) :
      Numeral.readWord radix u = .ok w ↔ Numeral.Writes radix u w.toNat :=
    Numeral.readWord_eq_ok_iff hr
  constructor
  · intro h
    unfold read radixAndRest at h
    split at h
    · exact .binary ((hword 2 _ (by decide)).1 h)
    · exact .octal ((hword 8 _ (by decide)).1 h)
    · exact .hexLower ((hword 16 _ (by decide)).1 h)
    · exact .hexUpper ((hword 16 _ (by decide)).1 h)
    · exact .decimal ((hword 10 _ (by decide)).1 h)
  · intro h
    cases h with
    | binary ht => exact (hword 2 _ (by decide)).2 ht
    | octal ht => exact (hword 8 _ (by decide)).2 ht
    | hexLower ht => exact (hword 16 _ (by decide)).2 ht
    | hexUpper ht => exact (hword 16 _ (by decide)).2 ht
    | decimal ht =>
      rw [read, radixAndRest_of_decimal ht]
      exact (hword 10 _ (by decide)).2 ht

end Literal

/-! ## Operands -/

/-- The text is what the slot demands, and carries that parameter. -/
inductive Slot.Spelled : Slot → Text → Option Param → Prop
  /-- The register's name. -/
  | register (r : Register) : Spelled (.register r) r.name none
  /-- The register's name in brackets, with or without blanks around it. -/
  | indirect (r : Register) {b b' : Text} : b.blank = true → b'.blank = true →
      Spelled (.indirect r) ('[' :: (b ++ (r.name ++ (b' ++ [']'])))) none
  /-- A literal of 16 bits that starts with a digit. -/
  | literal {c : Char} {t : Text} {w : UInt16} : c.isDigit = true → Literal.Writes (c :: t) w.toNat →
      Spelled .value ('#' :: c :: t) (some (.literal w))
  /-- The address of a symbol. -/
  | address {x : Text} : x.isSymbol = true → Spelled .value ('#' :: x) (some (.symbol x))
  /-- A symbol. -/
  | label {x : Text} : x.isSymbol = true → Spelled .label x (some (.symbol x))

/-- The text is spelled as some slot demands. -/
def WellFormed (token : Text) : Prop := ∃ (s : Slot) (q : Option Param), s.Spelled token q

/-- The text is a number behind a `#`, and no literal of 16 bits. -/
def Oversized (token number : Text) : Prop :=
  token = '#' :: number ∧ (∃ c t, number = c :: t ∧ c.isDigit = true) ∧
    ∀ w : UInt16, ¬ Literal.Writes number w.toNat

namespace Operand

theorem readValue_eq_some_iff {t : Text} {o : Operand} :
    readValue t = .ok (some o) ↔ ∃ q, o = .value q ∧ Slot.value.Spelled ('#' :: t) (some q) := by
  constructor
  · intro h
    unfold readValue at h
    split at h
    · cases h
    · rename_i c u
      split at h
      · rename_i hdigit
        split at h
        · rename_i w hread
          cases h
          exact ⟨_, rfl, .literal hdigit (Literal.read_eq_ok_iff.1 hread)⟩
        · cases h
      · split at h
        · rename_i hsymbol
          cases h
          exact ⟨_, rfl, .address hsymbol⟩
        · cases h
  · rintro ⟨q, rfl, hq⟩
    cases hq with
    | literal hdigit hwrites =>
      simp only [readValue, hdigit, if_true, Literal.read_eq_ok_iff.2 hwrites]
    | address hsymbol => exact readValue_symbol hsymbol

theorem readValue_eq_error_iff {t v : Text} : readValue t = .error v ↔ v = t ∧ Oversized ('#' :: t) t := by
  have hnone (u : Text) : (∀ w : UInt16, ¬ Literal.Writes u w.toNat) ↔ ∀ w, Literal.read u ≠ .ok w :=
    forall_congr' fun w => not_congr Literal.read_eq_ok_iff.symm
  rw [Oversized, hnone]
  constructor
  · intro h
    unfold readValue at h
    split at h
    · cases h
    · rename_i c u
      split at h
      · rename_i hdigit
        split at h
        · cases h
        · rename_i hread
          cases h
          exact ⟨rfl, rfl, ⟨c, u, rfl, hdigit⟩, fun w hw => by rw [hread] at hw; cases hw⟩
      · cases h
  · rintro ⟨rfl, -, ⟨c, u, rfl, hdigit⟩, hnot⟩
    simp only [readValue, hdigit, if_true]
    cases hread : Literal.read (c :: u) with
    | ok w => exact absurd hread (hnot w)
    | error fault => rfl

/-- What stands between the brackets. -/
theorem bracketed?_eq_some_iff {t inner : Text} :
    bracketed? t = some inner ↔ t = '[' :: (inner ++ [']']) := by
  constructor
  · intro h
    unfold bracketed? at h
    split at h
    · rename_i rest
      split at h
      · rename_i hlast
        obtain ⟨front, rfl⟩ := List.getLast?_eq_some_iff.1 hlast
        rw [List.dropLast_concat] at h
        rw [Option.some.inj h]
      · cases h
    · cases h
  · rintro rfl
    rw [bracketed?, List.getLast?_concat, if_pos rfl, List.dropLast_concat]

/-- No register has a bracket in its name. -/
theorem ofName?_bracket (t : Text) : Register.ofName? ('[' :: t) = none := by
  rw [Option.eq_none_iff_forall_not_mem]
  intro r hr
  have hname := Register.ofName?_eq_some_iff.1 hr
  cases r <;> cases hname

theorem read_bracketed (inner : Text) :
    read ('[' :: (inner ++ [']'])) = .ok ((Register.ofName? inner.trim).map .indirect) := by
  have hbracketed : bracketed? ('[' :: (inner ++ [']'])) = some inner := bracketed?_eq_some_iff.2 rfl
  simp only [read, ofName?_bracket, hbracketed]

/-- **Operands**: exactly the texts that a slot demands are read, as what the slot takes. -/
theorem read_eq_some_iff {t : Text} {o : Operand} :
    read t = .ok (some o) ↔ o.slot.Spelled t o.param? := by
  constructor
  · intro h
    unfold read at h
    split at h
    · rename_i r hr
      obtain rfl : .register r = o := Option.some.inj (Except.ok.inj h)
      rw [Register.ofName?_eq_some_iff.1 hr]
      exact .register r
    · split at h
      · rename_i inner hbracketed
        obtain ⟨r, hr, rfl⟩ := Option.map_eq_some_iff.1 (Except.ok.inj h)
        obtain ⟨b, b', hb, hb', hinner⟩ := Text.exists_trim inner
        rw [Register.ofName?_eq_some_iff.1 hr] at hinner
        rw [bracketed?_eq_some_iff.1 hbracketed, hinner]
        simp only [List.append_assoc]
        exact .indirect r hb hb'
      · split at h
        · obtain ⟨q, rfl, hq⟩ := readValue_eq_some_iff.1 h
          exact hq
        · split at h
          · rename_i hsymbol
            obtain rfl : .bare t = o := Option.some.inj (Except.ok.inj h)
            exact .label hsymbol
          · cases h
  · intro h
    cases o with
    | register r =>
      obtain ⟨⟩ := h
      cases r <;> rfl
    | indirect r =>
      cases h with
      | @indirect _ b b' hb hb' =>
        have hname : (b ++ (r.name ++ b')).trim = r.name := by
          have hsolid : r.name.solid = true := by cases r <;> decide
          have hfree := Text.not_blank_of_solid hsolid
          obtain ⟨hs, he⟩ := Text.trim_of_free hfree
          rw [← List.append_assoc, Text.trim_append hb', Text.trim_indented hb hs he]
        have hread := read_bracketed (b ++ (r.name ++ b'))
        rw [hname, Register.ofName?_eq_some_iff.2 rfl] at hread
        simp only [List.append_assoc] at hread
        exact hread
    | value q =>
      have hq : Slot.value.Spelled t (some q) := h
      obtain ⟨u, rfl⟩ : ∃ u, t = '#' :: u := by cases hq <;> exact ⟨_, rfl⟩
      rw [read_hash]
      exact readValue_eq_some_iff.2 ⟨q, rfl, hq⟩
    | bare x =>
      cases h with
      | label hsymbol => exact read_symbol hsymbol

/-- **Faults**: exactly the numbers are refused that fit no word. -/
theorem read_eq_error_iff {t v : Text} : read t = .error v ↔ Oversized t v := by
  constructor
  · intro h
    unfold read at h
    split at h
    · cases h
    · split at h
      · cases h
      · split at h
        · obtain ⟨rfl, hover⟩ := readValue_eq_error_iff.1 h
          exact hover
        · cases h
  · intro h
    obtain ⟨rfl, -⟩ := id h
    rw [read_hash]
    exact readValue_eq_error_iff.2 ⟨rfl, h⟩

end Operand

/-! ## Lines -/

/-- The line is the mnemonic with these tokens, which are not trimmed: the mnemonic alone, or the
    mnemonic, at least one blank, and the tokens between commas. -/
inductive Mnemonic.Spells (m : Mnemonic) : Text → List Text → Prop
  | alone : Spells m m.name []
  | operands {gap : Text} {tokens : List Text} : gap ≠ [] → gap.blank = true → tokens ≠ [] →
      (∀ t ∈ tokens, ',' ∉ t) → Spells m (m.name ++ (gap ++ Text.join "," tokens)) tokens

namespace Mnemonic

theorem name_free (m : Mnemonic) : ∀ c ∈ m.name, isBlank c = false := by
  have hsolid : m.name.solid = true := by cases m <;> decide
  exact Text.not_blank_of_solid hsolid

/-- Behind a mnemonic, a blank and more, the line has more that is not blank. -/
theorem tokens_behind {m : Mnemonic} {c : Char} {behind : Text} (hc : isBlank c = true)
    (hend : (m.name ++ c :: behind).trimEnd = m.name ++ c :: behind) :
    (m.name ++ c :: behind).headAndRest.1 = m.name ∧
      Catalog.tokens (m.name ++ c :: behind).headAndRest.2 = (Text.fields (c :: behind)).map Text.trim := by
  have hpos : ∀ d ∈ m.name, (!isBlank d) = true := fun d hd => by rw [m.name_free d hd]; rfl
  have htake : (m.name ++ c :: behind).takeWhile (fun d => !isBlank d) = m.name := by
    rw [List.takeWhile_append_of_pos hpos, List.takeWhile_cons, hc]
    simp
  have hdrop : (m.name ++ c :: behind).dropWhile (fun d => !isBlank d) = c :: behind := by
    rw [List.dropWhile_append_of_pos hpos, List.dropWhile_cons, hc]
    simp
  -- the line is trimmed, so what is behind the mnemonic is not all blank
  have hnot : Text.trim (c :: behind) ≠ [] := by
    intro hnil
    obtain ⟨b, b', hb, hb', heq⟩ := Text.exists_trim (c :: behind)
    rw [hnil, List.nil_append] at heq
    have hblank : Text.blank (c :: behind) = true := by
      rw [heq, Text.blank, List.all_append]
      exact Bool.and_eq_true_iff.2 ⟨hb, hb'⟩
    rw [Text.trimEnd_append, hblank, if_pos rfl] at hend
    have hlength := congrArg List.length ((Text.trim_of_free m.name_free).2.symm.trans hend)
    rw [List.length_append, List.length_cons] at hlength
    omega
  refine ⟨htake, ?_⟩
  show Catalog.tokens (Text.trim ((m.name ++ c :: behind).dropWhile fun d => !isBlank d)) = _
  rw [hdrop, Catalog.tokens, if_neg (by simpa using hnot), Text.fields_trim]

/-- What the reader of lines finds in a line that is spelled so. -/
theorem Spells.tokens_eq {m : Mnemonic} {line : Text} {tokens : List Text} (h : m.Spells line tokens)
    (hend : line.trimEnd = line) :
    line.headAndRest.1 = m.name ∧ Catalog.tokens line.headAndRest.2 = tokens.map Text.trim := by
  cases h with
  | alone =>
    rw [Text.headAndRest_of_free m.name_free]
    exact ⟨rfl, rfl⟩
  | @operands gap _ hgap hblank hne hfree =>
    obtain ⟨c, gap, rfl⟩ := List.exists_cons_of_ne_nil hgap
    have hc : isBlank c = true := List.all_eq_true.1 hblank c List.mem_cons_self
    obtain ⟨hhead, htokens⟩ := tokens_behind hc hend
    have hgone := Text.fields_indented hblank (Text.join "," tokens)
    rw [Text.fields_join hfree hne] at hgone
    exact ⟨hhead, htokens.trans hgone⟩

/-- Every line whose first word is a mnemonic is spelled so. -/
theorem exists_spells {m : Mnemonic} {line : Text} (hhead : line.headAndRest.1 = m.name) :
    ∃ tokens, m.Spells line tokens := by
  have hsplit : line = m.name ++ line.dropWhile fun c => !isBlank c := by
    rw [← hhead]
    exact (List.takeWhile_append_dropWhile).symm
  cases hbehind : line.dropWhile fun c => !isBlank c with
  | nil =>
    rw [hbehind, List.append_nil] at hsplit
    rw [hsplit]
    exact ⟨[], .alone⟩
  | cons c behind =>
    have hc : isBlank c = true := by
      have hfirst := List.head?_dropWhile_not (fun c => !isBlank c) line
      rw [hbehind] at hfirst
      simpa using hfirst
    have hfree : ∀ t ∈ Text.fields behind, ',' ∉ t := fun _ => Text.not_comma_of_mem_fields
    have hblank : Text.blank [c] = true := by simpa [Text.blank] using hc
    have hspells : m.Spells _ (Text.fields behind) :=
      .operands (List.cons_ne_nil c []) hblank (Text.splitBy_ne_nil _ _) hfree
    rw [Text.join_fields, List.singleton_append, ← hbehind, ← hsplit] at hspells
    exact ⟨_, hspells⟩

end Mnemonic

end Minicore
