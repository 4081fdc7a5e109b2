/-
  STEPS — what every step of the generator does, whether or not it fails.

  Problem: derivations speak of steps that succeed.  A step that fails in the middle has taken numbers
  and emitted code all the same, a generator goes on behind it, and the numbers it took must not come
  again.

  1. **Invariant** — `Sound own n₀ n₁ e`: between the counters `n₀` and `n₁` exactly the temporaries of
     `e` are numbered; its body is readable instructions and labels; its declarations are of
     identifiers.  Its labels are new: each comes at most once and has a number between — except for the
     labels `own`, whose number was taken BEFORE the step and which the step may emit, each as often as
     it is listed.

  2. **Rules** — `Gen.Keeps own Q m`: the step `m` is sound, and a result that it has satisfies `Q`.
     Chains add up their `own` (`Keeps.bind`); taking a number pays for the labels that carry it, one of
     each role (`Keeps.label_bind`).  With a fault a chain ends early, and a label that is not emitted
     any more costs nothing (`Sound.weaken`).

  3. **Tree walk** — one case for each kind of node, by the rules (`keeps_expression`,
     `keeps_statement`).
-/
import Minicore.Codegen.Rules
import Minicore.Proofs.Codegen.Readable

namespace Minicore

open Statement (AllReadable names isCode)

/-! ## The invariant -/

/-- How often a label may come for its number: once, if the number is between. -/
def allowance (lo hi : Nat) (l : Label) : Nat := if lo < l.number ∧ l.number ≤ hi then 1 else 0

/-- Stretches of numbers one behind another. -/
theorem allowance_add {lo mid hi : Nat} (hlo : lo ≤ mid) (hhi : mid ≤ hi) (l : Label) :
    allowance lo mid l + allowance mid hi l = allowance lo hi l := by
  unfold allowance
  by_cases h : l.number ≤ mid
  · have hnot : ¬ (mid < l.number ∧ l.number ≤ hi) := by omega
    by_cases hl : lo < l.number
    · rw [if_pos ⟨hl, h⟩, if_neg hnot, if_pos ⟨hl, by omega⟩]
    · rw [if_neg (by omega), if_neg hnot, if_neg (by omega)]
  · rw [if_neg (by omega)]
    by_cases hr : l.number ≤ hi
    · rw [if_pos ⟨by omega, hr⟩, if_pos ⟨by omega, hr⟩]
    · rw [if_neg (by omega), if_neg (by omega)]

/-- What a step contributes while the counters go from `n₀` to `n₁`, and while it may emit the labels
    `own` under numbers taken before. -/
structure Sound (own : List Label) (n₀ n₁ : Names) (e : Emission) : Prop where
  numbered : Numbered n₀ n₁ e
  le : n₀.labels ≤ n₁.labels
  labels : ∃ ls : List Label, names e.body = ls.map Label.name ∧
    ∀ l, ls.count l ≤ own.count l + allowance n₀.labels n₁.labels l
  readable : AllReadable e.body
  code : e.body.all isCode = true
  declared : ∀ d ∈ e.declarations, d.name.isIdentifier = true

namespace Sound

variable {own own' : List Label} {n₀ n₁ n₂ : Names} {a b e : Emission}

/-- Labels that are not emitted. -/
theorem weaken (h : Sound own n₀ n₁ e) (hle : ∀ l, own.count l ≤ own'.count l) :
    Sound own' n₀ n₁ e := by
  obtain ⟨ls, hnames, hcount⟩ := h.labels
  refine ⟨h.numbered, h.le, ⟨ls, hnames, fun l => ?_⟩, h.readable, h.code, h.declared⟩
  have h₁ := hcount l
  have h₂ := hle l
  omega

/-- A contribution that takes no label numbers and emits its own labels. -/
theorem of_own (ht : Numbered n₀ n₁ e) (hl : n₁.labels = n₀.labels)
    (hnames : names e.body = own.map Label.name) (hr : AllReadable e.body)
    (hc : e.body.all isCode = true) (hd : ∀ d ∈ e.declarations, d.name.isIdentifier = true) :
    Sound own n₀ n₁ e :=
  ⟨ht, Nat.le_of_eq hl.symm, ⟨own, hnames, fun _ => Nat.le_add_right _ _⟩, hr, hc, hd⟩

theorem empty (n : Names) : Sound [] n n Emission.empty :=
  of_own (.of_nil rfl rfl) rfl rfl .nil rfl fun _ hd => nomatch hd

/-- **One step behind another.** -/
theorem append (ha : Sound own n₀ n₁ a) (hb : Sound own' n₁ n₂ b) :
    Sound (own ++ own') n₀ n₂ (a ++ b) := by
  obtain ⟨ls, hls, hcount⟩ := ha.labels
  obtain ⟨ms, hms, hcount'⟩ := hb.labels
  refine ⟨ha.numbered.append hb.numbered, Nat.le_trans ha.le hb.le, ⟨ls ++ ms, ?_, fun l => ?_⟩,
    ha.readable.append hb.readable, ?_, List.forall_mem_append.2 ⟨ha.declared, hb.declared⟩⟩
  · rw [Emission.body_append, Statement.names_append, List.map_append, hls, hms]
  · have h₁ := hcount l
    have h₂ := hcount' l
    have hadd := allowance_add ha.le hb.le l
    rw [List.count_append, List.count_append]
    omega
  · rw [Emission.body_append, List.all_append, ha.code, hb.code]
    rfl

/-- **A new number** pays for one label of each role. -/
theorem of_label {roles : List LabelRole} (hr : roles.Nodup) {t k : Nat}
    (h : Sound (roles.map fun r => ⟨r, k + 1⟩) ⟨t, k + 1⟩ n₁ e) : Sound [] ⟨t, k⟩ n₁ e := by
  obtain ⟨ls, hnames, hcount⟩ := h.labels
  have hle : k + 1 ≤ n₁.labels := h.le
  refine ⟨h.numbered, by show k ≤ n₁.labels; omega, ⟨ls, hnames, fun l => ?_⟩, h.readable, h.code,
    h.declared⟩
  have hgroup : (roles.map fun r => (⟨r, k + 1⟩ : Label)).count l ≤ allowance k (k + 1) l := by
    obtain ⟨hnodup, hnumbers⟩ := Marked.group hr k
    by_cases hl : l ∈ roles.map fun r => (⟨r, k + 1⟩ : Label)
    · have hone := List.nodup_iff_count.1 hnodup l
      rw [allowance, if_pos (hnumbers l hl)]
      exact hone
    · rw [List.count_eq_zero_of_not_mem hl]
      exact Nat.zero_le _
  have hrest : ls.count l ≤ _ + allowance (k + 1) n₁.labels l := hcount l
  have hadd := allowance_add (Nat.le_succ k) hle l
  rw [List.count_nil, Nat.zero_add]
  show ls.count l ≤ allowance k n₁.labels l
  simp only [Nat.succ_eq_add_one] at hadd
  omega

end Sound

/-! ## Rules for chains of steps -/

namespace Gen

variable {α β : Type} {own own' : List Label} {Q : α → Prop} {Q' : β → Prop}

/-- Whatever the counters: what the step contributes is sound, and its result satisfies `Q`. -/
def Keeps (own : List Label) (Q : α → Prop) (m : Gen α) : Prop :=
  ∀ names : Names, Sound own names (m names).names (m names).emission ∧
    ∀ a, (m names).result = .ok a → Q a

/-- No condition on the result. -/
abbrev Any (_ : α) : Prop := True

namespace Keeps

theorem weaken {m : Gen α} (h : Keeps own Q m) (hle : ∀ l, own.count l ≤ own'.count l) :
    Keeps own' Q m :=
  fun names => ⟨(h names).1.weaken hle, (h names).2⟩

theorem pure {a : α} (h : Q a) : Keeps [] Q (Pure.pure a) := by
  refine fun names => ⟨Sound.empty names, fun b hb => ?_⟩
  obtain rfl : a = b := Except.ok.inj hb
  exact h

theorem fail (e : TreeFault) : Keeps [] Q (Gen.fail e) :=
  fun names => ⟨Sound.empty names, fun _ h => nomatch h⟩

/-- **Chains**: after a fault there is no second step. -/
theorem bind {m : Gen α} {f : α → Gen β} (hm : Keeps own Q m) (hf : ∀ a, Q a → Keeps own' Q' (f a)) :
    Keeps (own ++ own') Q' (m >>= f) := by
  intro names
  obtain ⟨hsound, hresult⟩ := hm names
  rw [bind_apply]
  cases hr : (m names).result with
  | error fault =>
    refine ⟨hsound.weaken fun l => ?_, fun _ h => nomatch h⟩
    rw [List.count_append]
    exact Nat.le_add_right _ _
  | ok a =>
    obtain ⟨hsound', hresult'⟩ := hf a (hresult a hr) (m names).names
    exact ⟨hsound.append hsound', hresult'⟩

/-- **Numbers for labels**: whatever the number, the rest may emit a label of each role under it. -/
theorem label_bind {f : Nat → Gen β} (roles : List LabelRole) (hr : roles.Nodup)
    (hf : ∀ k, Keeps (roles.map fun r => ⟨r, k⟩) Q' (f k)) : Keeps [] Q' (label >>= f) := by
  intro names
  obtain ⟨hsound, hresult⟩ := hf (names.labels + 1) ⟨names.temps, names.labels + 1⟩
  rw [bind_apply]
  exact ⟨hsound.of_label hr, hresult⟩

theorem body {ss : List Statement} (hnames : names ss = own.map Label.name) (hr : AllReadable ss)
    (hc : ss.all isCode = true) : Keeps own Any (Gen.body ss) :=
  fun _ => ⟨Sound.of_own (.of_nil rfl rfl) rfl hnames hr hc fun _ hd => (nomatch hd), fun _ _ => trivial⟩

theorem declare {d : Declaration} (h : d.name.isIdentifier = true) : Keeps [] Any (Gen.declare d) := by
  refine fun names => ⟨Sound.of_own (.of_nil rfl rfl) rfl rfl .nil rfl fun d' hd' => ?_, fun _ _ => trivial⟩
  rw [List.mem_singleton.1 hd']
  exact h

theorem temp (v : UInt16) : Keeps [] (fun c => c.proper = true) (Gen.temp v) := by
  refine fun names =>
    ⟨Sound.of_own (.of_single rfl rfl) rfl rfl .nil rfl fun _ hd => (nomatch hd), fun c hc => ?_⟩
  obtain rfl := Except.ok.inj hc
  rfl

theorem identifier (t : Text) : Keeps [] (fun x => x.isIdentifier = true) (Gen.identifier t) := by
  unfold Gen.identifier
  split
  · rename_i h
    exact .pure h
  · exact .fail _

theorem literal (t : Text) : Keeps [] Any (Gen.literal t) := by
  unfold Gen.literal
  split
  · exact .pure trivial
  · exact .fail _

end Keeps

end Gen

open Gen (Keeps)

/-! ## Expressions -/

theorem keeps_operate (op : Operator) : Keeps [] Gen.Any (operate op) := by
  have hcompare : ∀ jump ∈ Code.branchOpcodes,
      Keeps [] Gen.Any (Gen.label >>= fun n => Gen.body (Code.compare jump n)) := by
    intro jump hj
    exact .label_bind [.holds, .join] (by decide) fun k => .body rfl (Code.readable_compare hj k) rfl
  cases op with
  | add => exact .body rfl (readable_operatorCode .add 0) rfl
  | sub => exact .body rfl (readable_operatorCode .sub 0) rfl
  | mul => exact .body rfl (readable_operatorCode .mul 0) rfl
  | eq => exact hcompare .beq (by decide)
  | lt => exact hcompare .bcc (by decide)

/-- **Expressions** are sound, and their cells can be named. -/
theorem keeps_expression : ∀ n : Node, Keeps [] (fun c => c.proper = true) (expression n)
  | .ident x => (Keeps.identifier x).bind fun _ hx => .pure hx
  | .intLit t => (Keeps.literal t).bind fun v _ => .temp v
  | .binary op left right => by
    rw [expression]
    have hleft := keeps_expression left
    have hright := keeps_expression right
    refine hleft.bind fun l hl => hright.bind fun r hr => ?_
    have hloads : Keeps [] Gen.Any (Gen.body (Code.load0 l ++ Code.load3 r)) :=
      .body rfl ((Code.readable_load0 hl).append (Code.readable_load3 hr)) rfl
    refine hloads.bind fun _ _ => (keeps_operate op).bind fun _ _ => (Keeps.temp 0).bind fun c hc => ?_
    have hstore : Keeps [] Gen.Any (Gen.body (Code.store c)) :=
      .body rfl (Code.readable_store hc) rfl
    exact hstore.bind fun _ _ => .pure hc
  | .program _ => .fail _
  | .block _ => .fail _
  | .scalarInit _ _ => .fail _
  | .tableInit _ _ _ => .fail _
  | .wait _ => .fail _
  | .scalarAssign _ _ => .fail _
  | .tableAssign _ _ _ => .fail _
  | .ifElse _ _ _ => .fail _
  | .whileLoop _ _ => .fail _
  | .exprStmt _ => .fail _

/-! ## Statements -/

/-- Only a name can be a target. -/
theorem keeps_targetName (target : Node) : Keeps [] (fun x => target = .ident x) (targetName target) := by
  cases target with
  | ident x => exact .pure rfl
  | _ => exact .fail _

theorem keeps_assignment (x : Text) (value : Node) : Keeps [] Gen.Any (assignment x value) := by
  have htarget : Keeps [] (fun c => c.proper = true) (declaredVariable x) :=
    (Keeps.identifier x).bind fun y hy =>
      (Keeps.declare (d := .variable y) hy).bind fun _ _ => .pure hy
  refine (keeps_expression value).bind fun source hs => htarget.bind fun target ht => ?_
  exact .body rfl ((Code.readable_load0 hs).append (Code.readable_store ht)) rfl

/-- What is in a tree with identifiers for its names has identifiers for its names. -/
theorem Node.WellNamed.of_part {n c : Node} (h : n.WellNamed) (hc : ∀ m ∈ c.subnodes, m ∈ n.subnodes) :
    c.WellNamed :=
  fun m hm => h m (hc m hm)

theorem Node.WellNamed.statements {ss : List Node} (h : (Node.block ss).WellNamed) :
    ∀ s ∈ ss, s.WellNamed := by
  have hall : ∀ ts : List Node, (∀ m ∈ subnodesOf ts, m ∈ (Node.block ss).subnodes) →
      ∀ s ∈ ts, s.WellNamed := by
    intro ts
    induction ts with
    | nil => exact fun _ s hs => nomatch hs
    | cons t ts ih =>
      intro hts
      rw [subnodesOf, List.forall_mem_append] at hts
      exact List.forall_mem_cons.2 ⟨h.of_part hts.1, ih hts.2⟩
  exact hall ss fun m hm => List.mem_cons_of_mem _ hm

/-- The statements of a program, as a block. -/
theorem Node.WellNamed.block {ss : List Node} (h : (Node.program ss).WellNamed) :
    (Node.block ss).WellNamed := by
  intro m hm x hx
  rcases List.mem_cons.1 hm with rfl | hm
  · cases hx
  · exact h m (List.mem_cons_of_mem _ hm) x hx

mutual

/-- **Statements** are sound. -/
theorem keeps_statement : ∀ n : Node, n.WellNamed → Keeps [] Gen.Any (statement n)
  | .block ss, h => keeps_statements ss h.statements
  | .scalarInit x value, _ => keeps_assignment x value
  | .scalarAssign target value, _ => (keeps_targetName target).bind fun x _ => keeps_assignment x value
  | .tableInit x size default, _ => by
    rw [statement]
    refine (Keeps.identifier x).bind fun y hy => (Keeps.literal size).bind fun n _ =>
      (Keeps.literal default).bind fun v _ => ?_
    exact .declare (d := .table y n v) hy
  | .tableAssign target index value, h => by
    rw [statement]
    refine (keeps_targetName target).bind fun x hx => (keeps_expression index).bind fun i hi =>
      (keeps_expression value).bind fun v hv => ?_
    -- the one name that the generator does not check
    have hid : x.isIdentifier = true := by
      subst hx
      exact h _ List.mem_cons_self x rfl
    refine .body rfl (((Code.readable_load3 hv).append (Code.readable_load0 hi)).append
      (.cons (Code.readable_base hid) ?_)) rfl
    exact .cons (Code.readable_plain (by decide)) (.cons (Code.readable_plain (by decide)) .nil)
  | .wait t, _ =>
    (Keeps.literal t).bind fun d _ => .body rfl (.cons (Code.readable_wait d) .nil) rfl
  | .ifElse condition consequence alternative, h => by
    rw [statement]
    have hconsequence : consequence.WellNamed := h.of_part fun m hm => by
      cases alternative <;> simp [Node.subnodes, hm]
    have halternative : ∀ a ∈ alternative, a.WellNamed := fun a ha => h.of_part fun m hm => by
      rw [Option.mem_def.1 ha]
      simp [Node.subnodes, hm]
    refine (keeps_expression condition).bind fun c hc =>
      .label_bind [.alternative, .endIf] (by decide) fun k => ?_
    have htest : Keeps [] Gen.Any (Gen.body (Code.test c ++
        [Code.branch .bne ⟨if hasAlternative alternative then .alternative else .endIf, k⟩])) :=
      .body rfl (Code.readable_test hc (by decide) _) rfl
    have hjump : Keeps [] Gen.Any (Gen.body [Code.branch .b ⟨.endIf, k⟩]) :=
      .body rfl (.cons (Code.readable_branch (by decide) (Label.isSymbol_name _)) .nil) rfl
    have hend : Keeps [⟨.endIf, k⟩] Gen.Any (Gen.body [Code.mark ⟨.endIf, k⟩]) :=
      .body rfl (.cons (Code.readable_mark _) .nil) rfl
    have hchain := htest.bind fun _ _ => (keeps_innerBlock consequence hconsequence).bind fun _ _ =>
      hjump.bind fun _ _ => (keeps_alternativePart k alternative halternative).bind fun _ _ => hend
    exact hchain
  | .whileLoop condition body, h => by
    rw [statement]
    have hbody : body.WellNamed := h.of_part fun m hm => by simp [Node.subnodes, hm]
    refine .label_bind [.loop, .endLoop] (by decide) fun k => ?_
    have hstart : Keeps [⟨.loop, k⟩] Gen.Any (Gen.body [Code.mark ⟨.loop, k⟩]) :=
      .body rfl (.cons (Code.readable_mark _) .nil) rfl
    have hback : Keeps [⟨.endLoop, k⟩] Gen.Any
        (Gen.body [Code.branch .b ⟨.loop, k⟩, Code.mark ⟨.endLoop, k⟩]) :=
      .body rfl (.cons (Code.readable_branch (by decide) (Label.isSymbol_name _))
        (.cons (Code.readable_mark _) .nil)) rfl
    have hchain := hstart.bind fun _ _ => (keeps_expression condition).bind fun c hc =>
      (show Keeps [] Gen.Any (Gen.body (Code.test c ++ [Code.branch .bne ⟨.endLoop, k⟩])) from
        .body rfl (Code.readable_test hc (by decide) _) rfl).bind fun _ _ =>
      (keeps_innerBlock body hbody).bind fun _ _ => hback
    exact hchain
  | .exprStmt expr, _ => (keeps_expression expr).bind fun _ _ => .pure trivial
  | .program _, _ => .fail _
  | .ident _, _ => .fail _
  | .intLit _, _ => .fail _
  | .binary _ _ _, _ => .fail _

theorem keeps_innerBlock : ∀ n : Node, n.WellNamed → Keeps [] Gen.Any (innerBlock n)
  | .block ss, h => keeps_statements ss h.statements
  | .program _, _ => .fail _
  | .scalarInit _ _, _ => .fail _
  | .tableInit _ _ _, _ => .fail _
  | .wait _, _ => .fail _
  | .scalarAssign _ _, _ => .fail _
  | .tableAssign _ _ _, _ => .fail _
  | .ifElse _ _ _, _ => .fail _
  | .whileLoop _ _, _ => .fail _
  | .exprStmt _, _ => .fail _
  | .ident _, _ => .fail _
  | .intLit _, _ => .fail _
  | .binary _ _ _, _ => .fail _

/-- An alternative may emit the label in front of it. -/
theorem keeps_alternativePart (k : Nat) : ∀ alternative : Option Node,
    (∀ a ∈ alternative, a.WellNamed) → Keeps [⟨.alternative, k⟩] Gen.Any (alternativePart k alternative)
  | none, _ => (Keeps.pure trivial).weaken fun _ => Nat.zero_le _
  | some a, h => by
    have hmark : Keeps [⟨.alternative, k⟩] Gen.Any (Gen.body [Code.mark ⟨.alternative, k⟩]) :=
      .body rfl (.cons (Code.readable_mark _) .nil) rfl
    have hchain := hmark.bind fun _ _ => keeps_innerBlock a (h a rfl)
    cases a with
    | block ts =>
      cases ts with
      | nil => exact (Keeps.pure trivial).weaken fun _ => Nat.zero_le _
      | cons t ts => exact hchain
    | _ => exact hchain

/-- Statements one behind another. -/
theorem keeps_statements : ∀ ss : List Node, (∀ s ∈ ss, s.WellNamed) → Keeps [] Gen.Any (statements ss)
  | [], _ => .pure trivial
  | s :: ss, h => by
    rw [statements]
    obtain ⟨hs, hss⟩ := List.forall_mem_cons.1 h
    exact (keeps_statement s hs).bind fun _ _ => keeps_statements ss hss

end

/-! ## Programs -/

theorem keeps_program (n : Node) (h : n.WellNamed) : Keeps [] Gen.Any (program n) := by
  cases n with
  | program ss => exact keeps_statements ss (Node.WellNamed.statements h.block)
  | _ => exact .fail _

end Minicore
