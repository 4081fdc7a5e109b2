/-
  NUMERALS READ BACK — a written number is the number.

  Problem: the generator writes words in hexadecimal behind `0x` and numbers names in decimal; the
  assembler reads words digit by digit with two faults in sight, and tells names apart by their
  letters.

  1. **Hexadecimal** — Horner's rule over the digits of `n` comes to `n` (`accumulate_hex`), by strong
     induction along `n / 16`, so a hexadecimal literal reads as its word (`read_hexLiteral`).

  2. **Decimal** — digits only (`isDigit_of_mem_decimal`), and different numbers are written
     differently (`decimal_injective`).

  3. **Characters** — nothing in a numeral or an identifier is a blank or a comma, so readers that cut
     at blanks and commas leave them whole.
-/
import Minicore.Machine.Literal
import Minicore.Machine.Symbol
import Minicore.Proofs.Text.Pieces

namespace Minicore

/-! ## Characters -/

/-- A text that neither blanks nor commas can cut. -/
def Text.solid (t : Text) : Bool := t.all fun c => !isBlank c && c != ','

namespace Text

variable {t s : Text}

theorem solid_iff : t.solid = true ↔ ∀ c ∈ t, isBlank c = false ∧ c ≠ ',' := by
  simp [solid]

theorem not_blank_of_solid (h : t.solid = true) : ∀ c ∈ t, isBlank c = false :=
  fun c hc => (solid_iff.1 h c hc).1

theorem not_comma_of_solid (h : t.solid = true) : ',' ∉ t :=
  fun hc => (solid_iff.1 h ',' hc).2 rfl

theorem solid_append : (s ++ t).solid = (s.solid && t.solid) := by
  simp [solid]

/-- Where the ASCII letters are. -/
theorem toNat_of_isAlpha {c : Char} (h : c.isAlpha = true) :
    (65 ≤ c.toNat ∧ c.toNat ≤ 90) ∨ (97 ≤ c.toNat ∧ c.toNat ≤ 122) := by
  rcases (Bool.or_eq_true _ _).mp h with hupper | hlower
  · obtain ⟨hlo, hhi⟩ := of_decide_eq_true hupper
    exact .inl ⟨UInt32.le_iff_toNat_le.1 hlo, UInt32.le_iff_toNat_le.1 hhi⟩
  · obtain ⟨hlo, hhi⟩ := (Bool.and_eq_true _ _).mp hlower
    exact .inr ⟨UInt32.le_iff_toNat_le.1 (of_decide_eq_true hlo),
      UInt32.le_iff_toNat_le.1 (of_decide_eq_true hhi)⟩

/-- Where the ASCII digits are. -/
theorem toNat_of_isDigit {c : Char} (h : c.isDigit = true) : 48 ≤ c.toNat ∧ c.toNat ≤ 57 := by
  obtain ⟨hlo, hhi⟩ := (Bool.and_eq_true _ _).mp h
  exact ⟨UInt32.le_iff_toNat_le.1 (of_decide_eq_true hlo),
    UInt32.le_iff_toNat_le.1 (of_decide_eq_true hhi)⟩

/-- Where the letters, the digits and the underscore are. -/
theorem toNat_of_continuesIdentifier {c : Char} (h : continuesIdentifier c = true) :
    (48 ≤ c.toNat ∧ c.toNat ≤ 57) ∨ (65 ≤ c.toNat ∧ c.toNat ≤ 90) ∨ c.toNat = 95 ∨
      (97 ≤ c.toNat ∧ c.toNat ≤ 122) := by
  rw [continuesIdentifier, Char.isAlphanum, Bool.or_eq_true, Bool.or_eq_true, beq_iff_eq] at h
  rcases h with (h | h) | rfl
  · have hn := toNat_of_isAlpha h
    omega
  · exact .inl (toNat_of_isDigit h)
  · exact .inr (.inr (.inl rfl))

/-- An identifier does not start with a digit. -/
theorem not_isDigit_of_startsIdentifier {c : Char} (h : startsIdentifier c = true) :
    c.isDigit = false := by
  rw [← Bool.not_eq_true]
  intro hdigit
  have hn := toNat_of_isDigit hdigit
  rw [startsIdentifier, Bool.or_eq_true, beq_iff_eq] at h
  rcases h with h | rfl
  · have hm := toNat_of_isAlpha h
    omega
  · exact absurd hdigit (by decide)

/-- A character of an identifier separates nothing. -/
theorem not_blank_of_continuesIdentifier {c : Char} (h : continuesIdentifier c = true) :
    isBlank c = false ∧ c ≠ ',' := by
  have hn := toNat_of_continuesIdentifier h
  constructor
  · simp only [isBlank, blankRanges, List.any_cons, List.any_nil, Bool.or_false, Bool.or_eq_false_iff,
      Bool.and_eq_false_iff, decide_eq_false_iff_not]
    omega
  · rintro rfl
    revert hn
    decide

theorem solid_of_all_continues (h : t.all continuesIdentifier = true) : t.solid = true :=
  solid_iff.2 fun c hc => not_blank_of_continuesIdentifier (List.all_eq_true.1 h c hc)

/-- What starts an identifier may also continue it. -/
theorem continues_of_starts {c : Char} (h : startsIdentifier c = true) :
    continuesIdentifier c = true := by
  simp only [startsIdentifier, continuesIdentifier, Char.isAlphanum, Bool.or_eq_true] at h ⊢
  rcases h with h | h
  · exact .inl (.inl h)
  · exact .inr h

theorem all_continues_of_isIdentifier (h : t.isIdentifier = true) :
    t.all continuesIdentifier = true := by
  cases t with
  | nil => rfl
  | cons c t =>
    rw [isIdentifier, Bool.and_eq_true] at h
    rw [List.all_cons, continues_of_starts h.1, h.2]
    rfl

theorem solid_of_isIdentifier (h : t.isIdentifier = true) : t.solid = true :=
  solid_of_all_continues (all_continues_of_isIdentifier h)

theorem isIdentifier_of_isSymbol (h : t.isSymbol = true) : t.isIdentifier = true := by
  rw [isSymbol, Bool.and_eq_true] at h
  exact h.1

theorem solid_of_isSymbol (h : t.isSymbol = true) : t.solid = true :=
  solid_of_isIdentifier (isIdentifier_of_isSymbol h)

theorem not_blank_of_isSymbol (h : t.isSymbol = true) : ∀ c ∈ t, isBlank c = false :=
  not_blank_of_solid (solid_of_isSymbol h)

theorem ne_nil_of_isSymbol (h : t.isSymbol = true) : t ≠ [] := by
  rintro rfl
  exact absurd h (by decide)

end Text

namespace Numeral

/-! ## Hexadecimal -/

/-- Horner's rule goes on behind a part that has been read. -/
theorem accumulate_append {radix v w : Nat} {a : Text} (h : accumulate radix v a = .ok w) (b : Text) :
    accumulate radix v (a ++ b) = accumulate radix w b := by
  induction a generalizing v with
  | nil =>
    obtain rfl : v = w := Except.ok.inj h
    rfl
  | cons c a ih =>
    simp only [accumulate, List.cons_append] at h ⊢
    split at h
    · cases h
    · split at h
      · rename_i hle
        rw [if_pos hle]
        exact ih h
      · cases h

/-- A written hexadecimal digit counts what it should. -/
theorem digit?_digitChar {d : Nat} (h : d < 16) : digit? 16 d.digitChar.toUpper = some d := by
  have hall : ∀ d : Fin 16, digit? 16 (Nat.digitChar d.val).toUpper = some d.val := by decide
  exact hall ⟨d, h⟩

theorem hex_of_lt {n : Nat} (h : n < 16) : hex n = [n.digitChar.toUpper] := by
  rw [hex, Nat.toDigits_of_lt_base h, List.map_singleton]

theorem hex_of_le {n : Nat} (h : 16 ≤ n) : hex n = hex (n / 16) ++ [(n % 16).digitChar.toUpper] := by
  rw [hex, Nat.toDigits_of_base_le (by omega) h, List.map_append, List.map_singleton, ← hex]

/-- Reading the digits of a word from left to right comes to the word. -/
theorem accumulate_hex {n : Nat} (h : n ≤ maxWord) : accumulate 16 0 (hex n) = .ok n := by
  induction n using Nat.strongRecOn with
  | _ n ih =>
    by_cases hn : n < 16
    · rw [hex_of_lt hn]
      simp only [accumulate, digit?_digitChar hn]
      rw [if_pos (by omega), Nat.zero_mul, Nat.zero_add]
    · -- all digits but the last one are those of `n / 16`
      have hdiv := Nat.div_add_mod n 16
      have hlast : n % 16 < 16 := Nat.mod_lt n (by omega)
      have hinit := ih (n / 16) (by omega) (by omega)
      rw [hex_of_le (by omega), accumulate_append hinit]
      simp only [accumulate, digit?_digitChar hlast]
      rw [if_pos (by omega), show n / 16 * 16 + n % 16 = n by omega]

/-- What holds of the sixteen digits holds of every character of a numeral. -/
theorem all_hex {p : Char → Bool} (h : ∀ d : Fin 16, p (Nat.digitChar d.val).toUpper = true) (n : Nat) :
    (hex n).all p = true := by
  induction n using Nat.strongRecOn with
  | _ n ih =>
    by_cases hn : n < 16
    · rw [hex_of_lt hn, List.all_cons, List.all_nil, Bool.and_true]
      exact h ⟨n, hn⟩
    · have hlast : n % 16 < 16 := Nat.mod_lt n (by omega)
      rw [hex_of_le (by omega), List.all_append, ih (n / 16) (by omega), List.all_cons, List.all_nil,
        Bool.and_true, Bool.true_and]
      exact h ⟨n % 16, hlast⟩

/-- A hexadecimal digit is a capital letter or a decimal digit. -/
theorem continues_of_mem_hex {n : Nat} : (hex n).all Text.continuesIdentifier = true :=
  all_hex (by decide) n

theorem hex_ne_nil (n : Nat) : hex n ≠ [] := by
  rw [hex, ne_eq, List.map_eq_nil_iff]
  exact Nat.toDigits_ne_nil

/-- Letters and digits are no signs, so nothing is dropped in front of them. -/
theorem readWord_of_continues {t : Text} (h : t.all Text.continuesIdentifier = true) (hne : t ≠ [])
    (radix : Nat) : readWord radix t = (accumulate radix 0 t).map UInt16.ofNat := by
  obtain ⟨c, rest, rfl⟩ := List.exists_cons_of_ne_nil hne
  have hc : Text.continuesIdentifier c = true := by
    rw [List.all_cons, Bool.and_eq_true] at h
    exact h.1
  have hplus : c ≠ '+' := by rintro rfl; revert hc; decide
  have hminus : c ≠ '-' := by rintro rfl; revert hc; decide
  have hdrop : dropPlus (c :: rest) = c :: rest := by
    unfold dropPlus
    split
    · rename_i heq
      exact absurd (List.cons.inj heq).1 hplus
    · rfl
  unfold readWord
  split
  · rename_i heq; cases heq
  · rename_i heq; exact absurd (List.cons.inj heq).1 hplus
  · rename_i heq; exact absurd (List.cons.inj heq).1 hminus
  · rw [hdrop]

theorem toNat_le_maxWord (v : UInt16) : v.toNat ≤ maxWord := by
  have := v.toNat_lt
  have hm : maxWord = 65535 := rfl
  omega

theorem readWord_hex (v : UInt16) : readWord 16 (hex v.toNat) = .ok v := by
  rw [readWord_of_continues continues_of_mem_hex (hex_ne_nil _), accumulate_hex (toNat_le_maxWord v)]
  show Except.ok (UInt16.ofNat v.toNat) = .ok v
  rw [UInt16.ofNat_toNat]

/-- **A written literal is its word.** -/
theorem read_hexLiteral (v : UInt16) : Literal.read (hexLiteral v.toNat) = .ok v := by
  show readWord 16 (hex v.toNat) = .ok v
  exact readWord_hex v

theorem solid_hexLiteral (n : Nat) : (hexLiteral n).solid = true := by
  rw [hexLiteral, Text.solid_append, Text.solid_of_all_continues continues_of_mem_hex]
  decide

/-! ## Decimal -/

theorem isDigit_of_mem_decimal {n : Nat} {c : Char} (h : c ∈ decimal n) : c.isDigit = true :=
  Nat.isDigit_of_mem_toDigits (by omega) (by omega) h

theorem continues_of_mem_decimal {n : Nat} : (decimal n).all Text.continuesIdentifier = true := by
  rw [List.all_eq_true]
  intro c hc
  have hdigit := isDigit_of_mem_decimal hc
  simp [Text.continuesIdentifier, Char.isAlphanum, hdigit]

/-- Different numbers are written differently. -/
theorem decimal_injective {m n : Nat} (h : decimal m = decimal n) : m = n := by
  have hvalue := congrArg (fun ds => Nat.ofDigitChars 10 ds 0) h
  simpa [decimal, Nat.ofDigitChars_ten_toDigits] using hvalue

end Numeral

end Minicore
