/-
  LITERALS — every text is a number of 16 bits, or has a FIRST fault.

  Problem: every operand and every cell of data is read by one loop, which multiplies, adds, and gives up
  somewhere.  The fault that it reports is part of the answer, so it has to be told without the loop: by
  what stands in the text, and where.

  1. **Specification** — `Numeral.IsDigit`: the sixteen digits, letters in either case.
     `Numeral.Denotes`: digits and their positional value.  `Numeral.FirstFault`: nothing there, a sign
     alone, or the first character behind a part that is still a number of 16 bits — no digit, or a
     digit with which it is one no longer.

  2. **Step** — one character stops the loop, or makes the value larger (`accumulate_cons`).  Never both:
     a character is looked at before its value is added, so at one place "no digit" comes before
     "too large".

  3. **Run** — so the loop fails exactly where something stops it behind a part that it has read
     (`accumulate_eq_error_iff`), and that part is told by its value (`accumulate_eq_ok_iff`).

  4. **Marks** — the radix is told by the first two characters, and for no text are there two ways to take
     it apart (`marked_iff`).
-/
import Minicore.Proofs.Text.Notation
import Minicore.Proofs.Text.Numerals
import Mathlib.Data.List.Forall2

namespace Minicore

namespace Numeral

variable {radix v n : Nat} {c : Char} {t : Text} {f : Fault}

/-! ## Digits -/

/-- The character is the digit `d` of the radix; a letter in either case. -/
def IsDigit (radix : Nat) (c : Char) (d : Nat) : Prop :=
  d < radix ∧ (c = d.digitChar ∨ c = d.digitChar.toUpper)

/-- Where the sixteen digits are. -/
theorem toNat_digitChar {d : Nat} (hd : d < 16) :
    d.digitChar.toNat = (if d < 10 then 48 + d else 87 + d) ∧
      d.digitChar.toUpper.toNat = if d < 10 then 48 + d else 55 + d := by
  have hall : ∀ d : Fin 16,
      (Nat.digitChar d.val).toNat = (if d.val < 10 then 48 + d.val else 87 + d.val) ∧
        (Nat.digitChar d.val).toUpper.toNat = if d.val < 10 then 48 + d.val else 55 + d.val := by
    decide
  exact hall ⟨d, hd⟩

/-- The value of a character is told by the place where it is. -/
theorem digitValue_eq_some_iff {d : Nat} (hd : d < 16) :
    digitValue c = some d ↔ c = d.digitChar ∨ c = d.digitChar.toUpper := by
  obtain ⟨hlower, hupper⟩ := toNat_digitChar hd
  have hle (a b : Char) : a ≤ b ↔ a.toNat ≤ b.toNat := UInt32.le_iff_toNat_le
  rw [← Char.toNat_inj, ← Char.toNat_inj, hlower, hupper]
  simp only [digitValue, hle, show '0'.toNat = 48 from rfl, show '9'.toNat = 57 from rfl,
    show 'a'.toNat = 97 from rfl, show 'z'.toNat = 122 from rfl, show 'A'.toNat = 65 from rfl,
    show 'Z'.toNat = 90 from rfl]
  -- digits, lower-case letters, capital letters, and everything else
  split
  · rw [Option.some.injEq]
    split <;> omega
  · split
    · rw [Option.some.injEq]
      split <;> omega
    · split
      · rw [Option.some.injEq]
        split <;> omega
      · simp only [reduceCtorEq, false_iff]
        split <;> omega

/-- **Digits**: the reader takes exactly the digits of the radix. -/
theorem digit?_eq_some_iff (hr : radix ≤ 16) {d : Nat} : digit? radix c = some d ↔ IsDigit radix c d := by
  rw [digit?, Option.filter_eq_some_iff, decide_eq_true_eq, IsDigit]
  constructor
  · rintro ⟨hvalue, hlt⟩
    exact ⟨hlt, (digitValue_eq_some_iff (by omega)).1 hvalue⟩
  · rintro ⟨hlt, hc⟩
    exact ⟨(digitValue_eq_some_iff (by omega)).2 hc, hlt⟩

theorem digit?_eq_none_iff (hr : radix ≤ 16) : digit? radix c = none ↔ ∀ d, ¬ IsDigit radix c d := by
  rw [Option.eq_none_iff_forall_ne_some]
  exact forall_congr' fun d => not_congr (digit?_eq_some_iff hr)

/-! ## Positional values -/

/-- The digits, read by position, are the number. -/
def Denotes (radix : Nat) (digits : Text) (n : Nat) : Prop :=
  ∃ values, List.Forall₂ (IsDigit radix) digits values ∧ Nat.ofDigits radix values.reverse = n

/-- The values of digits, one by one. -/
theorem mapM_digit?_eq_some_iff (hr : radix ≤ 16) {values : List Nat} :
    t.mapM (digit? radix) = some values ↔ List.Forall₂ (IsDigit radix) t values := by
  induction t generalizing values with
  | nil =>
    rw [List.mapM_nil, List.forall₂_nil_left_iff]
    exact ⟨fun h => (Option.some.inj h).symm, fun h => congrArg some h.symm⟩
  | cons c t ih =>
    rw [List.mapM_cons, List.forall₂_cons_left_iff]
    constructor
    · intro h
      obtain ⟨d, hd, h⟩ := Option.bind_eq_some_iff.1 h
      obtain ⟨ds, hds, h⟩ := Option.bind_eq_some_iff.1 h
      exact ⟨d, ds, (digit?_eq_some_iff hr).1 hd, ih.1 hds, (Option.some.inj h).symm⟩
    · rintro ⟨d, ds, hd, hds, rfl⟩
      rw [(digit?_eq_some_iff hr).2 hd, ih.2 hds]
      rfl

/-- What the loop has read is told by its value. -/
theorem accumulate_zero_eq_ok_iff (h0 : 0 < radix) (hr : radix ≤ 16) :
    accumulate radix 0 t = .ok n ↔ Denotes radix t n ∧ n ≤ maxWord := by
  rw [accumulate_eq_ok_iff h0 (Nat.zero_le _), and_comm]
  simp only [mapM_digit?_eq_some_iff hr, foldl_horner_zero, Denotes]

/-- One more digit behind. -/
theorem Denotes.concat {digits : Text} {d : Nat} (h : Denotes radix digits n) (hd : IsDigit radix c d) :
    Denotes radix (digits ++ [c]) (n * radix + d) := by
  obtain ⟨values, hvalues, rfl⟩ := h
  refine ⟨values ++ [d], List.rel_append hvalues (.cons hd .nil), ?_⟩
  rw [← foldl_horner_zero, List.foldl_concat, foldl_horner_zero]

/-- The last digit counts once, and all before it count the radix times. -/
theorem Denotes.exists_concat {digits : Text} {m : Nat} (h : Denotes radix (digits ++ [c]) m) :
    ∃ n d, Denotes radix digits n ∧ IsDigit radix c d ∧ m = n * radix + d := by
  obtain ⟨values, hvalues, rfl⟩ := h
  have hreverse := List.forall₂_reverse_iff.2 hvalues
  rw [List.reverse_append, List.reverse_singleton, List.singleton_append,
    List.forall₂_cons_left_iff] at hreverse
  obtain ⟨d, ds, hd, hds, heq⟩ := hreverse
  refine ⟨Nat.ofDigits radix ds, d, ⟨ds.reverse, ?_, by rw [List.reverse_reverse]⟩, hd, ?_⟩
  · exact List.forall₂_reverse_iff.1 (by rwa [List.reverse_reverse])
  · rw [heq, Nat.ofDigits_cons, Nat.mul_comm]
    exact Nat.add_comm _ _

/-- There is one value. -/
theorem Denotes.unique (hr : radix ≤ 16) {m : Nat} (hn : Denotes radix t n) (hm : Denotes radix t m) :
    n = m := by
  obtain ⟨values, hvalues, rfl⟩ := hn
  obtain ⟨others, hothers, rfl⟩ := hm
  have hsame := ((mapM_digit?_eq_some_iff hr).2 hvalues).symm.trans ((mapM_digit?_eq_some_iff hr).2 hothers)
  rw [Option.some.inj hsame]

/-- The texts that write a number, with their digits told one by one. -/
theorem writes_iff (hr : radix ≤ 16) : Writes radix t n ↔
    ∃ digits, (t = digits ∨ t = '+' :: digits) ∧ digits ≠ [] ∧ Denotes radix digits n := by
  simp only [Writes, Denotes, mapM_digit?_eq_some_iff hr]

/-! ## Faults -/

/-- Behind digits of value `n` the character is a fault. -/
inductive Stops (radix n : Nat) (c : Char) : Fault → Prop
  | invalidDigit : (∀ d, ¬ IsDigit radix c d) → Stops radix n c .invalidDigit
  | overflow {d : Nat} : IsDigit radix c d → maxWord < n * radix + d → Stops radix n c .overflow

/-- **Step**: a character is a fault, or a digit with which the loop goes on. -/
theorem accumulate_cons (hr : radix ≤ 16) (v : Nat) (c : Char) (t : Text) :
    (∃ f, Stops radix v c f ∧ accumulate radix v (c :: t) = .error f) ∨
      ∃ d, IsDigit radix c d ∧ v * radix + d ≤ maxWord ∧
        accumulate radix v (c :: t) = accumulate radix (v * radix + d) t := by
  cases hc : digit? radix c with
  | none =>
    refine .inl ⟨_, .invalidDigit ((digit?_eq_none_iff hr).1 hc), ?_⟩
    simp only [accumulate, hc]
  | some d =>
    have hd := (digit?_eq_some_iff hr).1 hc
    by_cases hle : v * radix + d ≤ maxWord
    · refine .inr ⟨d, hd, hle, ?_⟩
      simp only [accumulate, hc, if_pos hle]
    · refine .inl ⟨_, .overflow hd (by omega), ?_⟩
      simp only [accumulate, hc, if_neg hle]

/-- At a fault the loop stops, whatever stands behind. -/
theorem accumulate_of_stops (hr : radix ≤ 16) (h : Stops radix v c f) (t : Text) :
    accumulate radix v (c :: t) = .error f := by
  cases h with
  | invalidDigit hc => simp only [accumulate, (digit?_eq_none_iff hr).2 hc]
  | overflow hd hlt => simp only [accumulate, (digit?_eq_some_iff hr).2 hd, if_neg (Nat.not_le.2 hlt)]

/-- **Run**: the loop fails exactly where a character is a fault behind a part that has been read. -/
theorem accumulate_eq_error_iff (hr : radix ≤ 16) : accumulate radix v t = .error f ↔
    ∃ before c after n, t = before ++ c :: after ∧ accumulate radix v before = .ok n ∧
      Stops radix n c f := by
  constructor
  · intro h
    induction t generalizing v with
    | nil => cases h
    | cons c t ih =>
      rcases accumulate_cons hr v c t with ⟨g, hstops, hg⟩ | ⟨d, hd, hle, hrest⟩
      · obtain rfl : g = f := Except.error.inj (hg.symm.trans h)
        exact ⟨[], c, t, v, rfl, rfl, hstops⟩
      · obtain ⟨before, b, after, n, rfl, hok, hstops⟩ := ih (hrest ▸ h)
        refine ⟨c :: before, b, after, n, rfl, ?_, hstops⟩
        simp only [accumulate, (digit?_eq_some_iff hr).2 hd, if_pos hle, hok]
  · rintro ⟨before, c, after, n, rfl, hok, hstops⟩
    rw [accumulate_append hok, accumulate_of_stops hr hstops]

/-- The text without its plus sign, if it starts with one. -/
def Unsigned (t digits : Text) : Prop := t = '+' :: digits ∨ t = digits ∧ t.head? ≠ some '+'

theorem unsigned_iff {digits : Text} : Unsigned t digits ↔ dropPlus t = digits := by
  unfold Unsigned dropPlus
  split
  · simp
  · rename_i hnot
    constructor
    · rintro (rfl | ⟨rfl, -⟩)
      · exact absurd rfl (hnot digits)
      · rfl
    · rintro rfl
      refine .inr ⟨rfl, fun hhead => ?_⟩
      obtain ⟨rest, rfl⟩ := List.head?_eq_some_iff.1 hhead
      exact hnot rest rfl

/-- Why a text is no number of 16 bits, from left to right: there is nothing; there is a sign and nothing
    else; or, behind the plus sign if there is one, digits of a number of 16 bits are followed by a
    character that is no digit, or by a digit with which the number is larger. -/
inductive FirstFault (radix : Nat) : Text → Fault → Prop
  | empty : FirstFault radix [] .empty
  | sign {c : Char} : c = '+' ∨ c = '-' → FirstFault radix [c] .invalidDigit
  | invalidDigit {t before after : Text} {c : Char} {n : Nat} : Unsigned t (before ++ c :: after) →
      Denotes radix before n → n ≤ maxWord → (∀ d, ¬ IsDigit radix c d) →
      FirstFault radix t .invalidDigit
  | overflow {t before after : Text} {c : Char} {n m : Nat} : Unsigned t (before ++ c :: after) →
      Denotes radix before n → n ≤ maxWord → Denotes radix (before ++ [c]) m → maxWord < m →
      FirstFault radix t .overflow

/-- Behind the sign the first fault is where the loop stops. -/
theorem readWord_of_unsigned {before after : Text} (h0 : 0 < radix) (hr : radix ≤ 16)
    (ht : Unsigned t (before ++ c :: after)) (hbefore : Denotes radix before n) (hn : n ≤ maxWord)
    (hstops : Stops radix n c f) : readWord radix t = .error f := by
  have hdrop := unsigned_iff.1 ht
  have hread : accumulate radix 0 (dropPlus t) = .error f := (accumulate_eq_error_iff hr).2
    ⟨before, c, after, n, hdrop, (accumulate_zero_eq_ok_iff h0 hr).2 ⟨hbefore, hn⟩, hstops⟩
  rw [readWord_of_ne (by rw [hdrop]; simp), hread]
  rfl

/-- **Faults of a numeral**: the reader reports the first one. -/
theorem readWord_eq_error_iff (h0 : 0 < radix) (hr : radix ≤ 16) :
    readWord radix t = .error f ↔ FirstFault radix t f := by
  constructor
  · intro h
    by_cases hnil : dropPlus t = []
    · -- nothing is left behind the sign
      rcases unsigned_iff.2 hnil with rfl | ⟨rfl, -⟩
      · obtain rfl : .invalidDigit = f := Except.error.inj h
        exact .sign (.inl rfl)
      · obtain rfl : .empty = f := Except.error.inj h
        exact .empty
    · rw [readWord_of_ne hnil] at h
      cases hread : accumulate radix 0 (dropPlus t) with
      | ok m => rw [hread] at h; cases h
      | error g =>
        rw [hread] at h
        obtain rfl : g = f := Except.error.inj h
        obtain ⟨before, c, after, n, hsplit, hok, hstops⟩ := (accumulate_eq_error_iff hr).1 hread
        obtain ⟨hbefore, hn⟩ := (accumulate_zero_eq_ok_iff h0 hr).1 hok
        have ht := unsigned_iff.2 hsplit
        cases hstops with
        | invalidDigit hc => exact .invalidDigit ht hbefore hn hc
        | overflow hd hlt => exact .overflow ht hbefore hn (hbefore.concat hd) hlt
  · intro h
    cases h with
    | empty => rfl
    | sign hc => rcases hc with rfl | rfl <;> rfl
    | invalidDigit ht hbefore hn hc => exact readWord_of_unsigned h0 hr ht hbefore hn (.invalidDigit hc)
    | @overflow _ before after c n m ht hbefore hn hm hlt =>
      -- the larger value is the one that the last digit makes of the smaller one
      obtain ⟨n', d, hbefore', hd, rfl⟩ := hm.exists_concat
      obtain rfl : n = n' := hbefore.unique hr hbefore'
      exact readWord_of_unsigned h0 hr ht hbefore hn (.overflow hd hlt)

/-- No numeral but the empty one has the fault that nothing is there. -/
theorem firstFault_empty_iff : FirstFault radix t .empty ↔ t = [] := by
  constructor
  · intro h
    cases h
    rfl
  · rintro rfl
    exact .empty

end Numeral

namespace Literal

/-! ## Marks -/

/-- What a number of another radix than ten starts with. -/
def marks : List (Text × Nat) :=
  [("0b".toList, 2), ("0o".toList, 8), ("0x".toList, 16), ("0X".toList, 16)]

/-- The radix of a literal and the numeral behind its mark; without a mark, ten and the whole text. -/
inductive Marked : Text → Nat → Text → Prop
  | mark {m t : Text} {radix : Nat} : (m, radix) ∈ marks → Marked (m ++ t) radix t
  | plain {t : Text} : (∀ e ∈ marks, ¬ e.1 <+: t) → Marked t 10 t

/-- There is one way to take a text apart, and the reader finds it. -/
theorem marked_iff {s rest : Text} {radix : Nat} :
    Marked s radix rest ↔ radixAndRest s = (radix, rest) := by
  constructor
  · intro h
    cases h with
    | mark hm =>
      simp only [marks, List.mem_cons, Prod.mk.injEq, List.not_mem_nil, or_false] at hm
      rcases hm with ⟨rfl, rfl⟩ | ⟨rfl, rfl⟩ | ⟨rfl, rfl⟩ | ⟨rfl, rfl⟩ <;> rfl
    | plain hnot =>
      have hfree : ∀ e ∈ marks, ∀ u, s ≠ e.1 ++ u := fun e he u hs => hnot e he ⟨u, hs.symm⟩
      unfold radixAndRest
      split
      · exact absurd rfl (hfree ("0b".toList, 2) (by decide) _)
      · exact absurd rfl (hfree ("0o".toList, 8) (by decide) _)
      · exact absurd rfl (hfree ("0x".toList, 16) (by decide) _)
      · exact absurd rfl (hfree ("0X".toList, 16) (by decide) _)
      · rfl
  · intro h
    unfold radixAndRest at h
    split at h <;> obtain ⟨rfl, rfl⟩ := Prod.mk.inj h
    · exact .mark (m := "0b".toList) (by decide)
    · exact .mark (m := "0o".toList) (by decide)
    · exact .mark (m := "0x".toList) (by decide)
    · exact .mark (m := "0X".toList) (by decide)
    · rename_i hb ho hx hX
      refine .plain fun e he => ?_
      simp only [marks, List.mem_cons, List.not_mem_nil, or_false] at he
      rintro ⟨u, rfl⟩
      rcases he with rfl | rfl | rfl | rfl
      · exact hb u rfl
      · exact ho u rfl
      · exact hx u rfl
      · exact hX u rfl

/-- The four radices have digits. -/
theorem radix_bounds (s : Text) : 0 < (radixAndRest s).1 ∧ (radixAndRest s).1 ≤ 16 := by
  unfold radixAndRest
  split <;> simp

/-! ## The whole -/

/-- **Literals are exact.**  Every text has one radix and one numeral behind its mark.  It is read as a
    number exactly when the numeral is one or more digits of the radix, perhaps behind a plus sign, whose
    positional value is this number and has 16 bits; the fault is that nothing is there exactly when
    the numeral is empty; and otherwise the first fault from left to right is told. -/
theorem outcome_of_literal (s : Text) : ∃ radix rest,
    (∀ r u, Marked s r u ↔ r = radix ∧ u = rest) ∧
    (∀ n, (∃ w, read s = .ok w ∧ w.toNat = n) ↔
      (∃ digits, (rest = digits ∨ rest = '+' :: digits) ∧ digits ≠ [] ∧
        Numeral.Denotes radix digits n) ∧ n ≤ maxWord) ∧
    (read s = .error .empty ↔ rest = []) ∧
    ∀ f, read s = .error f ↔ Numeral.FirstFault radix rest f := by
  obtain ⟨h0, hr⟩ := radix_bounds s
  have hfault (f : Numeral.Fault) : read s = .error f ↔ Numeral.FirstFault _ _ f :=
    Numeral.readWord_eq_error_iff h0 hr
  refine ⟨_, _, fun r u => ?_, fun n => ?_, ?_, hfault⟩
  · rw [marked_iff, Prod.ext_iff]
    exact and_congr eq_comm eq_comm
  · rw [← Numeral.writes_iff hr]
    constructor
    · rintro ⟨w, hw, rfl⟩
      exact ⟨(Numeral.readWord_eq_ok_iff h0).1 hw, Numeral.toNat_le_maxWord w⟩
    · rintro ⟨hn, hle⟩
      have hnat := toNat_ofNat_of_le hle
      exact ⟨UInt16.ofNat n, (Numeral.readWord_eq_ok_iff h0).2 (by rwa [hnat]), hnat⟩
  · rw [hfault, Numeral.firstFault_empty_iff]

end Literal

end Minicore
