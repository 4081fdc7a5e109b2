/-
  SIMULATION — the code of a statement does on the machine what the statement means.

  Problem: a statement is compiled into code somewhere in the program; run on a machine that holds the
  store, it has to end behind itself on a machine that holds the store after the statement.

  1. **Program** — `Does … code s s' ws`: wherever the stretch `code` stands in the program, a machine
     at its start with the store `s` comes to its end with the store `s'`, and emits the pauses `ws`.
     `Tests … guard l s v`: the stretch ends behind itself if `v` is one, else at the mark of `l`.

  2. **Control** — stretches are put together as the generator puts code together: one behind another,
     guarded, with an alternative, in a loop.  These lemmas see labels and no nodes.

  3. **Statements** — `Executes.does`, by induction on the execution with the code general: the second
     round of a loop is done by the same code.
-/
import Minicore.Proofs.Meaning.Expressions

namespace Minicore

open Machine (Reaches)
open Statement (words)

/-! ## Stretches of code -/

/-- Wherever it stands, the code takes a machine with the first store to its end with the second, and
    emits these pauses. -/
def Does (asm : Assembly) (ss : List Statement) (all : List (Nat × UInt16)) (code : List Statement)
    (s s' : Store) (ws : List UInt16) : Prop :=
  ∀ ⦃a t out m⦄, At ss a code → Holds all t → Stands ss s t a out m →
    ∃ m' t', Reaches asm.records m m' ∧ Holds all t' ∧ Stands ss s' t' (a + words code) (out ++ ws) m'

/-- Wherever it stands, the code goes on behind itself if `v` is one, and else to the mark of the
    label. -/
def Tests (asm : Assembly) (ss : List Statement) (all : List (Nat × UInt16)) (guard : List Statement)
    (l : Label) (s : Store) (v : UInt16) : Prop :=
  ∀ ⦃a b rest t out m⦄, At ss a guard → At ss b (Code.mark l :: rest) → Holds all t →
    Stands ss s t a out m →
    ∃ m' t', Reaches asm.records m m' ∧ Holds all t' ∧
      Stands ss s t' (if v = 1 then a + words guard else b) out m'

section Control

variable {asm : Assembly} {ss : List Statement} {all : List (Nat × UInt16)}
  {code rest condition test body other : List Statement} {s s₁ s' : Store} {ws us : List UInt16}
  {l l' : Label} {v : UInt16}

namespace Does

theorem nil : Does asm ss all [] s s [] := by
  intro a t out m _ ht hm
  exact ⟨m, t, .refl m, ht, (List.append_nil out).symm ▸ hm⟩

theorem append (h₁ : Does asm ss all code s s₁ ws) (h₂ : Does asm ss all rest s₁ s' us) :
    Does asm ss all (code ++ rest) s s' (ws ++ us) := by
  intro a t out m hat ht hm
  obtain ⟨m₁, t₁, hreach₁, ht₁, hm₁⟩ := h₁ hat.left ht hm
  obtain ⟨m₂, t₂, hreach₂, ht₂, hm₂⟩ := h₂ hat.right ht₁ hm₁
  refine ⟨m₂, t₂, hreach₁.trans hreach₂, ht₂, ?_⟩
  rw [← List.append_assoc]
  refine hm₂.at_eq ?_
  rw [Statement.words_append, Nat.add_assoc]

/-! ## Conditionals -/

/-- A guarded body is done if the guard holds. -/
theorem guarded (h : Linked asm ss) (hguard : Tests asm ss all (condition ++ test) l s 1)
    (hbody : Does asm ss all body s s' ws) :
    Does asm ss all (condition ++ (test ++ (body ++ [Code.branch .b l, Code.mark l]))) s s' ws := by
  intro a t out m hat ht hm
  have hat := hat.regroup
  have hjump := hat.right.right
  obtain ⟨m₁, t₁, hreach₁, ht₁, hm₁⟩ := hguard hat.left hjump.tail ht hm
  rw [if_pos rfl] at hm₁
  obtain ⟨m₂, t₂, hreach₂, ht₂, hm₂⟩ := hbody hat.right.left ht₁ hm₁
  obtain ⟨m₃, hreach₃, hm₃⟩ := h.jump hjump hjump.tail hm₂
  refine ⟨m₃, t₂, hreach₁.trans (hreach₂.trans hreach₃), ht₂, hm₃.at_eq ?_⟩
  simp
  omega

/-- A guarded body is skipped if it does not. -/
theorem skipped (hguard : Tests asm ss all (condition ++ test) l s v) (hv : v ≠ 1) :
    Does asm ss all (condition ++ (test ++ (body ++ [Code.branch .b l, Code.mark l]))) s s [] := by
  intro a t out m hat ht hm
  have hat := hat.regroup
  obtain ⟨m₁, t₁, hreach₁, ht₁, hm₁⟩ := hguard hat.left hat.right.right.tail ht hm
  rw [if_neg hv] at hm₁
  refine ⟨m₁, t₁, hreach₁, ht₁, (List.append_nil out).symm ▸ hm₁.at_eq ?_⟩
  simp
  omega

/-- With an alternative, the body is done if the guard holds, and the alternative is jumped over. -/
theorem consequence (h : Linked asm ss) (hguard : Tests asm ss all (condition ++ test) l s 1)
    (hbody : Does asm ss all body s s' ws) :
    Does asm ss all (condition ++ (test ++ (body ++ ([Code.branch .b l', Code.mark l] ++
      (other ++ [Code.mark l']))))) s s' ws := by
  intro a t out m hat ht hm
  have hat := hat.regroup
  have hjump := hat.right.right
  obtain ⟨m₁, t₁, hreach₁, ht₁, hm₁⟩ := hguard hat.left hjump.left.tail ht hm
  rw [if_pos rfl] at hm₁
  obtain ⟨m₂, t₂, hreach₂, ht₂, hm₂⟩ := hbody hat.right.left ht₁ hm₁
  obtain ⟨m₃, hreach₃, hm₃⟩ := h.jump hjump.left hjump.right.right hm₂
  refine ⟨m₃, t₂, hreach₁.trans (hreach₂.trans hreach₃), ht₂, hm₃.at_eq ?_⟩
  simp
  omega

/-- The alternative is done if the guard does not hold. -/
theorem alternative (hguard : Tests asm ss all (condition ++ test) l s v) (hv : v ≠ 1)
    (hother : Does asm ss all other s s' ws) :
    Does asm ss all (condition ++ (test ++ (body ++ ([Code.branch .b l', Code.mark l] ++
      (other ++ [Code.mark l']))))) s s' ws := by
  intro a t out m hat ht hm
  have hat := hat.regroup
  have hjump := hat.right.right
  obtain ⟨m₁, t₁, hreach₁, ht₁, hm₁⟩ := hguard hat.left hjump.left.tail ht hm
  rw [if_neg hv] at hm₁
  obtain ⟨m₂, t₂, hreach₂, ht₂, hm₂⟩ := hother hjump.right.left ht₁ hm₁
  refine ⟨m₂, t₂, hreach₁.trans hreach₂, ht₂, hm₂.at_eq ?_⟩
  simp
  omega

/-! ## Loops -/

/-- A loop whose guard holds does its body, jumps back and is done again. -/
theorem again (h : Linked asm ss) (hguard : Tests asm ss all (condition ++ test) l s 1)
    (hbody : Does asm ss all body s s₁ ws)
    (hagain : Does asm ss all ([Code.mark l'] ++ (condition ++ (test ++ (body ++
      [Code.branch .b l', Code.mark l])))) s₁ s' us) :
    Does asm ss all ([Code.mark l'] ++ (condition ++ (test ++ (body ++
      [Code.branch .b l', Code.mark l])))) s s' (ws ++ us) := by
  intro a t out m hat ht hm
  have hinside := hat.right.regroup
  have hjump := hinside.right.right
  obtain ⟨m₁, t₁, hreach₁, ht₁, hm₁⟩ := hguard hinside.left hjump.tail ht hm
  rw [if_pos rfl] at hm₁
  obtain ⟨m₂, t₂, hreach₂, ht₂, hm₂⟩ := hbody hinside.right.left ht₁ hm₁
  obtain ⟨m₃, hreach₃, hm₃⟩ := h.jump hjump hat.left hm₂
  obtain ⟨m₄, t₄, hreach₄, ht₄, hm₄⟩ := hagain hat ht₂ hm₃
  refine ⟨m₄, t₄, hreach₁.trans (hreach₂.trans (hreach₃.trans hreach₄)), ht₄, ?_⟩
  exact (List.append_assoc out ws us) ▸ hm₄

/-- A loop whose guard does not hold is left. -/
theorem leave (hguard : Tests asm ss all (condition ++ test) l s v) (hv : v ≠ 1) :
    Does asm ss all ([Code.mark l'] ++ (condition ++ (test ++ (body ++
      [Code.branch .b l', Code.mark l])))) s s [] := by
  intro a t out m hat ht hm
  have hinside := hat.right.regroup
  obtain ⟨m₁, t₁, hreach₁, ht₁, hm₁⟩ := hguard hinside.left hinside.right.right.tail ht hm
  rw [if_neg hv] at hm₁
  refine ⟨m₁, t₁, hreach₁, ht₁, (List.append_nil out).symm ▸ hm₁.at_eq ?_⟩
  simp
  omega

end Does

end Control

/-! ## Guards -/

section

variable {asm : Assembly} {ss : List Statement} {all ks : List (Nat × UInt16)} {n : Node}
  {n₀ n₁ : Names} {c : Cell} {e : Emission} {s s' : Store} {es : List Event}

/-- The code of a condition with its test is a guard. -/
theorem ExpressionCode.tests (h : Linked asm ss) (hcode : ExpressionCode n n₀ c n₁ e ks)
    (hfits : Fits all n₀.temps n₁.temps ks) {v : UInt16} (hv : n.value? s.vars = some v) (l : Label) :
    Tests asm ss all (e.body ++ (Code.test c ++ [Code.branch .bne l])) l s v := by
  intro a b rest t out m hat htarget ht hm
  obtain ⟨m₁, t₁, hreach₁, hm₁, ht₁, hc, -⟩ := hcode.run h hat.left hfits hv ht hm
  obtain ⟨m₂, hreach₂, hm₂⟩ := h.test hat.right htarget hm₁
  refine ⟨m₂, t₁, hreach₁.trans hreach₂, ht₁, hm₂.at_eq ?_⟩
  rw [hc]
  split
  · simp
    omega
  · rfl

/-! ## Statements -/

/-- What an assignment assigns, it tells. -/
theorem Node.Assigns.assigned?_eq {value : Node} {x : Text} (h : n.Assigns x value) :
    n.assigned? = some x := by
  rcases h with rfl | rfl
  · rfl
  · rfl

/-- The code of an assignment. -/
theorem StatementCode.of_assigns {value : Node} {x : Text} (hn : n.Assigns x value)
    (h : StatementCode n n₀ n₁ e ks) :
    ∃ c d, ExpressionCode value n₀ c n₁ d ks ∧ e = d ++ ⟨Code.copy c (.var x), [], [.variable x]⟩ := by
  rcases hn with rfl | rfl
  · cases h with
    | assign hn _ hc =>
      rcases hn with hn | hn
      · obtain ⟨rfl, rfl⟩ := Node.scalarInit.inj hn
        exact ⟨_, _, hc, rfl⟩
      · cases hn
  · cases h with
    | assign hn _ hc =>
      rcases hn with hn | hn
      · cases hn
      · obtain ⟨htarget, rfl⟩ := Node.scalarAssign.inj hn
        obtain rfl := Node.ident.inj htarget
        exact ⟨_, _, hc, rfl⟩

/-- An assignment does what it means. -/
theorem StatementCode.does_assign (h : Linked asm ss) {value : Node} {x : Text} (hn : n.Assigns x value)
    (hcode : StatementCode n n₀ n₁ e ks) (hfits : Fits all n₀.temps n₁.temps ks) {v : UInt16}
    (hv : value.value? s.vars = some v) : Does asm ss all e.body s (s.setVar x v) [] := by
  obtain ⟨c, d, hc, rfl⟩ := hcode.of_assigns hn
  intro a t out m hat ht hm
  have hat : At ss a (d.body ++ Code.copy c (.var x)) := hat
  obtain ⟨m₁, t₁, hreach₁, hm₁, ht₁, hcell, -⟩ := hc.run h hat.left hfits hv ht hm
  have hputs : Puts (.cell (.var x)) (contents s t₁ (.cell c)) s t₁ (s.setVar x v) t₁ := by
    rw [hcell]
    exact puts_var s t₁ v x
  obtain ⟨m₂, hreach₂, hm₂⟩ := h.copy hat.right hm₁ hputs
  refine ⟨m₂, t₁, hreach₁.trans hreach₂, ht₁, (List.append_nil out).symm ▸ hm₂.at_eq ?_⟩
  simp
  omega

/-- An assignment to a cell of a table does what it means, if the cell has an address. -/
theorem does_tableAssign (h : Linked asm ss) {x : Text} {index value : Node} {i v : UInt16}
    {n₂ : Names} {ci cv : Cell} {d f : Emission} {ls : List (Nat × UInt16)}
    (hci : ExpressionCode index n₀ ci n₁ d ks) (hcv : ExpressionCode value n₁ cv n₂ f ls)
    (hfits : Fits all n₀.temps n₂.temps (ks ++ ls)) (hi : index.value? s.vars = some i)
    (hv : value.value? s.vars = some v) {j : Nat} (hj : Lies ss (.entry x i) j) :
    Does asm ss all (d.body ++ (f.body ++ tableStore x ci cv)) s (s.setCell x i v) [] := by
  intro a t out m hat ht hm
  have hk := hci.within
  have hk' := hcv.within
  obtain ⟨m₁, t₁, hreach₁, hm₁, ht₁, hcell₁, -⟩ :=
    hci.run h hat.left (hfits.left hk hk' (Nat.le_refl _)) hi ht hm
  obtain ⟨m₂, t₂, hreach₂, hm₂, ht₂, hcell₂, hframe⟩ :=
    hcv.run h hat.right.left (hfits.right hk hk' (Nat.le_refl _)) hv ht₁ hm₁
  -- the index survives the value
  have hcell₁' : contents s t₂ (.cell ci) = i := by
    rw [hci.kept fun k hle => hframe k (.inl hle), hcell₁]
  have hputs : Puts (.entry x (contents s t₂ (.cell ci))) (contents s t₂ (.cell cv)) s t₂
      (s.setCell x i v) t₂ := by
    rw [hcell₁', hcell₂]
    exact puts_entry s t₂ v x i
  obtain ⟨m₃, hreach₃, hm₃⟩ := h.tableStore hat.right.right hm₂ (hcell₁'.symm ▸ hj) hputs
  refine ⟨m₃, t₂, hreach₁.trans (hreach₂.trans hreach₃), ht₂,
    (List.append_nil out).symm ▸ hm₃.at_eq ?_⟩
  simp
  omega

/-- Every store of these events is to an entry that has an address. -/
def Addressed (ss : List Statement) (es : List Event) : Prop :=
  ∀ x i v, Event.store x i v ∈ es → ∃ j, Lies ss (.entry x i) j

theorem Addressed.left {es fs : List Event} (h : Addressed ss (es ++ fs)) : Addressed ss es :=
  fun x i v hmem => h x i v (List.mem_append_left _ hmem)

theorem Addressed.right {es fs : List Event} (h : Addressed ss (es ++ fs)) : Addressed ss fs :=
  fun x i v hmem => h x i v (List.mem_append_right _ hmem)

theorem Event.waits_append (es fs : List Event) : waits (es ++ fs) = waits es ++ waits fs :=
  List.filterMap_append

/-- **Simulation**: the code of a statement that has an execution does what the execution does. -/
theorem Executes.does (h : Linked asm ss) (hrun : Executes n s es s')
    (hcode : StatementCode n n₀ n₁ e ks) (hfits : Fits all n₀.temps n₁.temps ks)
    (hes : Addressed ss es) : Does asm ss all e.body s s' (Event.waits es) := by
  induction hrun generalizing n₀ n₁ e ks with
  | nil =>
    cases hcode with
    | nil => exact .nil
    | assign hn _ _ => cases hn.assigned?_eq
  | cons _ _ ih ihs =>
    cases hcode with
    | cons hs hss =>
      rw [Event.waits_append]
      exact (ih hs (hfits.left hs.within hss.within (Nat.le_refl _)) hes.left).append
        (ihs hss (hfits.right hs.within hss.within (Nat.le_refl _)) hes.right)
    | assign hn _ _ => cases hn.assigned?_eq
  | assign hn hv => exact hcode.does_assign h hn hfits hv
  | tableInit =>
    cases hcode with
    | tableInit _ _ _ => exact .nil
    | assign hn _ _ => cases hn.assigned?_eq
  | @tableAssign x index value i v s hi hv =>
    cases hcode with
    | tableAssign hci hcv =>
      obtain ⟨j, hj⟩ := hes x i v (List.mem_singleton_self _)
      exact does_tableAssign h hci hcv hfits hi hv hj
    | assign hn _ _ => cases hn.assigned?_eq
  | @wait x d s hd =>
    cases hcode with
    | wait hd' =>
      obtain rfl := Option.some.inj (hd.symm.trans hd')
      intro a t out m hat ht hm
      obtain ⟨m₁, hreach, hm₁⟩ := h.wait hat hm
      exact ⟨m₁, t, hreach, ht, hm₁⟩
    | assign hn _ _ => cases hn.assigned?_eq
  | ifTrue hv _ ih =>
    cases hcode with
    | ifThen _ hc hbody =>
      have hguard := hc.tests h (hfits.left hc.within hbody.within (Nat.le_refl _)) hv
      exact .guarded h (hguard _) (ih hbody (hfits.right hc.within hbody.within (Nat.le_refl _)) hes)
    | ifElse hc hbody hother =>
      have hwithin := hbody.within.append hother.within
      have hfits' := hfits.right hc.within hwithin (Nat.le_refl _)
      have hguard := hc.tests h (hfits.left hc.within hwithin (Nat.le_refl _)) hv
      exact .consequence h (hguard _)
        (ih hbody (hfits'.left hbody.within hother.within (Nat.le_refl _)) hes)
    | assign hn _ _ => cases hn.assigned?_eq
  | ifFalse hv hne hrun ih =>
    cases hcode with
    | ifThen hnone hc hbody =>
      have hguard := hc.tests h (hfits.left hc.within hbody.within (Nat.le_refl _)) hv
      -- the alternative is an empty block, and running it changes nothing
      rcases hnone with hnone | hnone
      · cases hnone
      · obtain rfl := Option.some.inj hnone
        cases hrun with
        | nil => exact .skipped (hguard _) hne
        | assign hn _ => cases hn.assigned?_eq
    | ifElse hc hbody hother =>
      have hwithin := hbody.within.append hother.within
      have hfits' := hfits.right hc.within hwithin (Nat.le_refl _)
      have hguard := hc.tests h (hfits.left hc.within hwithin (Nat.le_refl _)) hv
      exact .alternative (hguard _) hne
        (ih hother (hfits'.right hbody.within hother.within (Nat.le_refl _)) hes)
    | assign hn _ _ => cases hn.assigned?_eq
  | ifSkip hv hne =>
    cases hcode with
    | ifThen _ hc hbody =>
      have hguard := hc.tests h (hfits.left hc.within hbody.within (Nat.le_refl _)) hv
      exact .skipped (hguard _) hne
    | assign hn _ _ => cases hn.assigned?_eq
  | whileTrue hv _ _ ih ihrest =>
    -- the second round is the same code, so it has the same derivation
    have hagain := ihrest hcode hfits hes.right
    rw [Event.waits_append]
    cases hcode with
    | whileLoop hc hbody =>
      have hguard := hc.tests h (hfits.left hc.within hbody.within (Nat.le_refl _)) hv
      exact .again h (hguard _) (ih hbody (hfits.right hc.within hbody.within (Nat.le_refl _)) hes.left)
        hagain
    | assign hn _ _ => cases hn.assigned?_eq
  | whileFalse hv hne =>
    cases hcode with
    | whileLoop hc hbody =>
      have hguard := hc.tests h (hfits.left hc.within hbody.within (Nat.le_refl _)) hv
      exact .leave (hguard _) hne
    | assign hn _ _ => cases hn.assigned?_eq
  | exprStmt hv =>
    cases hcode with
    | exprStmt hc =>
      intro a t out m hat ht hm
      obtain ⟨m₁, t₁, hreach, hm₁, ht₁, -, -⟩ := hc.run h hat hfits hv ht hm
      exact ⟨m₁, t₁, hreach, ht₁, (List.append_nil out).symm ▸ hm₁⟩
    | assign hn _ _ => cases hn.assigned?_eq
  | program _ _ =>
    cases hcode with
    | assign hn _ _ => cases hn.assigned?_eq

end

end Minicore
