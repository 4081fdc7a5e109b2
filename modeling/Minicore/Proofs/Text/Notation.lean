/-
  NOTATION — which texts write which numbers.

  Problem: a reader of numbers is defined by what it does, digit by digit, with a fault wherever it
  gives up.  Whoever writes a number wants to know what it MEANS, and which texts mean anything at all.

  1. **Specification** — `Numeral.Writes radix t n`: the text is one or more digits of the radix, perhaps
     behind a plus sign, and `n` is their positional value.  Leading zeros are digits like others.

  2. **Reading** — the reader accepts exactly the texts that write a number of 16 bits, and comes to
     this number (`readWord_eq_ok_iff`).  Horner's rule never comes down again, so a value that ends
     within 16 bits has stayed within them all the way (`accumulate_eq_ok_iff`).
-/
import Minicore.Text.Numeral
import Mathlib.Data.Nat.Digits.Defs

namespace Minicore

namespace Numeral

/-- The text writes the number in that radix: a plus sign or none, then digits, at least one. -/
def Writes (radix : Nat) (t : Text) (n : Nat) : Prop :=
  ∃ digits : Text, (t = digits ∨ t = '+' :: digits) ∧ digits ≠ [] ∧
    ∃ values, digits.mapM (digit? radix) = some values ∧ Nat.ofDigits radix values.reverse = n

/-! ## Horner's rule -/

/-- The value in front grows with every digit. -/
theorem le_foldl_horner {radix : Nat} (hr : 0 < radix) (values : List Nat) (v : Nat) :
    v ≤ values.foldl (fun m d => m * radix + d) v := by
  induction values generalizing v with
  | nil => exact Nat.le_refl v
  | cons d values ih =>
    have hstep : v ≤ v * radix + d := Nat.le_trans (Nat.le_mul_of_pos_right v hr) (Nat.le_add_right _ _)
    exact Nat.le_trans hstep (ih _)

/-- Horner's rule is the positional value. -/
theorem foldl_horner_zero (radix : Nat) (values : List Nat) :
    values.foldl (fun m d => m * radix + d) 0 = Nat.ofDigits radix values.reverse := by
  rw [Nat.ofDigits_eq_foldr, List.foldr_reverse]
  simp only [Nat.cast_id, Nat.mul_comm radix, Nat.add_comm]

/-- What is accumulated, told by the digits: nothing but digits, and a value of 16 bits. -/
theorem accumulate_eq_ok_iff {radix : Nat} (hr : 0 < radix) {t : Text} {v n : Nat} (hv : v ≤ maxWord) :
    accumulate radix v t = .ok n ↔
      n ≤ maxWord ∧ ∃ values, t.mapM (digit? radix) = some values ∧
        values.foldl (fun m d => m * radix + d) v = n := by
  induction t generalizing v with
  | nil =>
    rw [accumulate, Except.ok.injEq, List.mapM_nil]
    constructor
    · rintro rfl
      exact ⟨hv, [], rfl, rfl⟩
    · rintro ⟨-, values, hvalues, rfl⟩
      obtain rfl : [] = values := Option.some.inj hvalues
      rfl
  | cons c t ih =>
    cases hc : digit? radix c with
    | none => simp [accumulate, hc, List.mapM_cons]
    | some d =>
      have hmapM : (c :: t).mapM (digit? radix) = (t.mapM (digit? radix)).map (d :: ·) := by
        rw [List.mapM_cons, hc]
        cases t.mapM (digit? radix) <;> rfl
      simp only [accumulate, hc, hmapM, Option.map_eq_some_iff]
      split
      · rename_i hle
        rw [ih hle]
        refine and_congr_right fun _ => ⟨?_, ?_⟩
        · rintro ⟨values, hvalues, hn⟩
          exact ⟨d :: values, ⟨values, hvalues, rfl⟩, hn⟩
        · rintro ⟨_, ⟨values, hvalues, rfl⟩, hn⟩
          exact ⟨values, hvalues, hn⟩
      · -- too large already, and it never comes down again
        rename_i hgt
        simp only [reduceCtorEq, false_iff]
        rintro ⟨hn, _, ⟨values, -, rfl⟩, rfl⟩
        exact hgt (Nat.le_trans (le_foldl_horner hr values _) hn)

/-! ## Words -/

/-- No radix has the sign among its digits. -/
theorem ne_plus_of_digits {radix : Nat} {c : Char} {t : Text} {values : List Nat}
    (h : (c :: t).mapM (digit? radix) = some values) : c ≠ '+' := by
  have hplus : digit? radix '+' = none := rfl
  rintro rfl
  rw [List.mapM_cons, hplus] at h
  cases h

/-- One plus sign is dropped if there is one. -/
theorem eq_or_eq_cons_dropPlus (t : Text) : t = dropPlus t ∨ t = '+' :: dropPlus t := by
  unfold dropPlus
  split
  · exact .inr rfl
  · exact .inl rfl

theorem dropPlus_of_ne {c : Char} (hc : c ≠ '+') (t : Text) : dropPlus (c :: t) = c :: t := by
  unfold dropPlus
  split
  · rename_i heq
    exact absurd (List.cons.inj heq).1 hc
  · rfl

/-- A numeral is what stands behind the plus sign, if anything does. -/
theorem readWord_of_ne {radix : Nat} {t : Text} (hnil : dropPlus t ≠ []) :
    readWord radix t = (accumulate radix 0 (dropPlus t)).map UInt16.ofNat := by
  unfold readWord
  split
  · exact absurd rfl hnil
  · exact absurd rfl hnil
  · -- a minus sign alone is no digit either
    rfl
  · rfl

/-- **Reading a word**: the reader accepts exactly the texts that write a number of 16 bits, and comes
    to this number. -/
theorem readWord_eq_ok_iff {radix : Nat} (hr : 0 < radix) {t : Text} {w : UInt16} :
    readWord radix t = .ok w ↔ Writes radix t w.toNat := by
  have hzero : 0 ≤ maxWord := Nat.zero_le _
  constructor
  · intro h
    have hnil : dropPlus t ≠ [] := by
      intro hnil
      rcases eq_or_eq_cons_dropPlus t with ht | ht <;> rw [hnil] at ht <;> subst ht <;> cases h
    rw [readWord_of_ne hnil] at h
    cases hn : accumulate radix 0 (dropPlus t) with
    | error fault => rw [hn] at h; cases h
    | ok n =>
      rw [hn] at h
      obtain rfl : UInt16.ofNat n = w := Except.ok.inj h
      obtain ⟨hle, values, hvalues, hvalue⟩ := (accumulate_eq_ok_iff hr hzero).1 hn
      refine ⟨dropPlus t, eq_or_eq_cons_dropPlus t, hnil, values, hvalues, ?_⟩
      rw [← foldl_horner_zero, hvalue, toNat_ofNat_of_le hle]
  · rintro ⟨digits, ht, hne, values, hvalues, hvalue⟩
    obtain ⟨c, rest, rfl⟩ := List.exists_cons_of_ne_nil hne
    have hplus := ne_plus_of_digits hvalues
    have hdrop : dropPlus t = c :: rest := by
      rcases ht with rfl | rfl
      · exact dropPlus_of_ne hplus rest
      · rfl
    have hread : accumulate radix 0 (c :: rest) = .ok w.toNat :=
      (accumulate_eq_ok_iff hr hzero).2
        ⟨Nat.le_of_lt_succ w.toNat_lt, values, hvalues, (foldl_horner_zero radix values).trans hvalue⟩
    rw [readWord_of_ne (by rw [hdrop]; exact hne), hdrop, hread]
    show Except.ok (UInt16.ofNat w.toNat) = .ok w
    rw [UInt16.ofNat_toNat]

end Numeral

end Minicore
