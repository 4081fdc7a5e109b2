/-
  WRITE-ONCE CELLS — each temporary is written once and used once.

  Problem: the value of a node is handed to the node around it in a cell, past the code of all that is
  evaluated between.  That works because nothing else touches the cell: it is stored to by its own node
  and loaded by the node around it, and a number's cell is not stored to at all.

  1. **Program** — `Node.evaluated` lists the nodes that take a temporary in the order of evaluation, each
     with whether its value is used: only that of an expression statement is not.  So the temporary
     with the number `i + 1` is the one of the `i`-th of these nodes.

  2. **Invariant** — `Uses lo ev vars pending as`: the accesses `as` store to the temporaries of the
     operators in `ev`, numbered behind `lo`, and in that order; they load those whose values are used,
     each once, except the `pending` ones, whose values are still to be used; no temporary is loaded
     before it is stored to; and the variables stored to are `vars`.

  3. **Crux** — the cell of an expression is what is pending behind its code; the node around it loads the
     cell, and then nothing is (`ExpressionCode.accessed`, `StatementCode.accessed`).
-/
import Minicore.Proofs.Codegen.Accesses
import Minicore.Proofs.Codegen.Declarations
import Minicore.Proofs.Codegen.Steps
import Minicore.Proofs.Meaning.Loading
import Mathlib.Data.List.Count

namespace Minicore

namespace Node

/-! ## The order of evaluation -/

mutual

/-- The nodes that take a temporary, in the order of evaluation, each with whether its value is used;
    that of the tree itself is if `used`. -/
def evaluated (used : Bool) : Node → List (Node × Bool)
  | .intLit t => [(.intLit t, used)]
  | .binary op left right =>
    left.evaluated true ++ (right.evaluated true ++ [(.binary op left right, used)])
  | .ident _ => []
  | .program ss => evaluatedOf ss
  | .block ss => evaluatedOf ss
  | .scalarInit _ value => value.evaluated true
  | .scalarAssign target value => target.evaluated true ++ value.evaluated true
  | .tableInit _ _ _ => []
  | .tableAssign target index value =>
    target.evaluated true ++ (index.evaluated true ++ value.evaluated true)
  | .wait _ => []
  | .ifElse condition consequence none => condition.evaluated true ++ consequence.evaluated true
  | .ifElse condition consequence (some alternative) =>
    condition.evaluated true ++ (consequence.evaluated true ++ alternative.evaluated true)
  | .whileLoop condition body => condition.evaluated true ++ body.evaluated true
  | .exprStmt expr => expr.evaluated false

/-- Those of several trees. -/
def evaluatedOf : List Node → List (Node × Bool)
  | [] => []
  | n :: rest => n.evaluated true ++ evaluatedOf rest

end

mutual

/-- They are the nodes with a temporary in post-order. -/
theorem map_fst_evaluated (used : Bool) : ∀ n : Node,
    (n.evaluated used).map Prod.fst = n.postorder.filter takesTemporary
  | .intLit t => rfl
  | .binary op left right => by
    simp [evaluated, postorder, takesTemporary, map_fst_evaluated true left,
      map_fst_evaluated true right, List.filter_cons]
  | .ident _ => rfl
  | .program ss => by simp [evaluated, postorder, takesTemporary, map_fst_evaluatedOf ss]
  | .block ss => by simp [evaluated, postorder, takesTemporary, map_fst_evaluatedOf ss]
  | .scalarInit _ value => by simp [evaluated, postorder, takesTemporary, map_fst_evaluated true value]
  | .scalarAssign target value => by
    simp [evaluated, postorder, takesTemporary, map_fst_evaluated true target,
      map_fst_evaluated true value]
  | .tableInit _ _ _ => rfl
  | .tableAssign target index value => by
    simp [evaluated, postorder, takesTemporary, map_fst_evaluated true target,
      map_fst_evaluated true index, map_fst_evaluated true value]
  | .wait _ => rfl
  | .ifElse condition consequence none => by
    simp [evaluated, postorder, takesTemporary, map_fst_evaluated true condition,
      map_fst_evaluated true consequence]
  | .ifElse condition consequence (some alternative) => by
    simp [evaluated, postorder, takesTemporary, map_fst_evaluated true condition,
      map_fst_evaluated true consequence, map_fst_evaluated true alternative]
  | .whileLoop condition body => by
    simp [evaluated, postorder, takesTemporary, map_fst_evaluated true condition,
      map_fst_evaluated true body]
  | .exprStmt expr => by simp [evaluated, postorder, takesTemporary, map_fst_evaluated false expr]

theorem map_fst_evaluatedOf : ∀ ss : List Node,
    (evaluatedOf ss).map Prod.fst = (postorderOf ss).filter takesTemporary
  | [] => rfl
  | n :: rest => by
    simp [evaluatedOf, postorderOf, map_fst_evaluated true n, map_fst_evaluatedOf rest]

end

/-- The node is an operator. -/
def isOperator : Node → Bool
  | .binary _ _ _ => true
  | _ => false

end Node

/-! ## Numbers -/

/-- The numbers behind `lo` of those values for which `p` holds. -/
def numbersOf (p : Node × Bool → Bool) (lo : Nat) (ev : List (Node × Bool)) : List Nat :=
  ((ev.zipIdx (lo + 1)).filter fun d => p d.1).map Prod.snd

section Numbers

variable {p : Node × Bool → Bool} {lo : Nat}

theorem numbersOf_append (ev fv : List (Node × Bool)) :
    numbersOf p lo (ev ++ fv) = numbersOf p lo ev ++ numbersOf p (lo + ev.length) fv := by
  simp only [numbersOf, List.zipIdx_append, List.filter_append, List.map_append,
    Nat.add_right_comm lo 1]

theorem numbersOf_singleton (d : Node × Bool) :
    numbersOf p lo [d] = if p d = true then [lo + 1] else [] := by
  unfold numbersOf
  by_cases h : p d = true <;> simp [h]

/-- They lie behind `lo`, up to the number of the last value. -/
theorem bounds_of_mem_numbersOf {ev : List (Node × Bool)} {k : Nat} (h : k ∈ numbersOf p lo ev) :
    lo < k ∧ k ≤ lo + ev.length := by
  obtain ⟨⟨d, j⟩, hd, rfl⟩ := List.mem_map.1 h
  obtain ⟨hle, hlt, -⟩ := List.mem_zipIdx (List.mem_filter.1 hd).1
  show lo < j ∧ j ≤ lo + ev.length
  omega

/-- Each number comes once if its value is one of them, and otherwise not at all. -/
theorem count_numbersOf {ev : List (Node × Bool)} {i : Nat} {d : Node × Bool} (h : ev[i]? = some d) :
    (numbersOf p lo ev).count (lo + i + 1) = if p d = true then 1 else 0 := by
  obtain ⟨hi, rfl⟩ := List.getElem?_eq_some_iff.1 h
  -- the numbers in front are smaller, and those behind are larger
  have hsplit : ev = ev.take i ++ ([ev[i]] ++ ev.drop (i + 1)) := by
    rw [List.singleton_append, ← List.drop_eq_getElem_cons hi, List.take_append_drop]
  have hfront : (numbersOf p lo (ev.take i)).count (lo + i + 1) = 0 := by
    refine List.count_eq_zero_of_not_mem fun hmem => ?_
    have := bounds_of_mem_numbersOf hmem
    rw [List.length_take] at this
    omega
  have hlength : (ev.take i).length = i := List.length_take_of_le (Nat.le_of_lt hi)
  have hbehind : (numbersOf p (lo + i + 1) (ev.drop (i + 1))).count (lo + i + 1) = 0 := by
    refine List.count_eq_zero_of_not_mem fun hmem => ?_
    have := bounds_of_mem_numbersOf hmem
    omega
  conv_lhs => rw [hsplit]
  rw [numbersOf_append, numbersOf_append, numbersOf_singleton, hlength, List.length_singleton,
    List.count_append, List.count_append, hfront, hbehind]
  split <;> simp

end Numbers

/-! ## The invariant -/

/-- The number of a temporary. -/
def Cell.temp? : Cell → Option Nat
  | .temp k => some k
  | _ => none

/-- The name of a variable. -/
def Cell.var? : Cell → Option Text
  | .var x => some x
  | _ => none

/-- The temporaries that are loaded. -/
def loadedTemps (as : List (Access Cell)) : List Nat := as.filterMap fun a => a.loaded?.bind Cell.temp?

/-- The temporaries that are stored to. -/
def storedTemps (as : List (Access Cell)) : List Nat := as.filterMap fun a => a.stored?.bind Cell.temp?

/-- The variables that are stored to. -/
def storedVars (as : List (Access Cell)) : List Text := as.filterMap fun a => a.stored?.bind Cell.var?

/-- The accesses `as` are those to the temporaries of the values `ev`, numbered behind `lo`, with the
    values `pending` not used yet; the variables stored to are `vars`. -/
structure Uses (lo : Nat) (ev : List (Node × Bool)) (vars : List Text) (pending : List Nat)
    (as : List (Access Cell)) : Prop where
  stored : storedTemps as = numbersOf (fun d => d.1.isOperator) lo ev
  loaded : (loadedTemps as ++ pending).Perm (numbersOf Prod.snd lo ev)
  /-- No temporary is loaded before it is stored to. -/
  order : as.Pairwise fun a b => ∀ k, a = .load (.temp k) → b ≠ .store (.temp k)
  vars : storedVars as = vars
  constants : ∀ c, .store c ∈ as → c ≠ .zero ∧ c ≠ .one

namespace Uses

variable {lo : Nat} {ev fv : List (Node × Bool)} {vs ws : List Text} {p q : List Nat}
  {as bs : List (Access Cell)}

theorem mem_loadedTemps {k : Nat} (h : .load (.temp k) ∈ as) : k ∈ loadedTemps as :=
  List.mem_filterMap.2 ⟨_, h, rfl⟩

theorem mem_storedTemps {k : Nat} (h : .store (.temp k) ∈ as) : k ∈ storedTemps as :=
  List.mem_filterMap.2 ⟨_, h, rfl⟩

/-- Only temporaries of these values are loaded. -/
theorem bounds_of_load (h : Uses lo ev vs p as) {k : Nat} (hk : .load (.temp k) ∈ as) :
    lo < k ∧ k ≤ lo + ev.length :=
  bounds_of_mem_numbersOf (h.loaded.mem_iff.1 (List.mem_append_left _ (mem_loadedTemps hk)))

theorem bounds_of_store (h : Uses lo ev vs p as) {k : Nat} (hk : .store (.temp k) ∈ as) :
    lo < k ∧ k ≤ lo + ev.length :=
  bounds_of_mem_numbersOf (h.stored ▸ mem_storedTemps hk)

/-- Accesses that have to do with no temporary and with no store. -/
theorem of_loads (h : ∀ a ∈ as, ∃ c : Cell, c.temp? = none ∧ a = .load c) : Uses lo [] [] [] as := by
  have hnone {α : Type} {f : Access Cell → Option α}
      (hf : ∀ c : Cell, c.temp? = none → f (.load c) = none) : as.filterMap f = [] :=
    List.filterMap_eq_nil_iff.2 fun a ha => by
      obtain ⟨c, hc, rfl⟩ := h a ha
      exact hf c hc
  refine ⟨hnone fun c _ => rfl, ?_, ?_, hnone fun c _ => rfl, fun c hc => ?_⟩
  · rw [loadedTemps, hnone fun c hc => hc]
    exact .refl _
  · refine List.Pairwise.imp_of_mem (R := fun _ _ => True) (fun {a b} _ hb _ k _ hstore => ?_)
      (List.pairwise_of_forall fun _ _ => trivial)
    obtain ⟨c, -, rfl⟩ := h b hb
    cases hstore
  · obtain ⟨c', -, heq⟩ := h _ hc
    cases heq

theorem nil : Uses lo [] [] [] [] := of_loads (List.forall_mem_nil _)

/-- **One behind another**: the numbers of the second are behind those of the first. -/
theorem append (h : Uses lo ev vs p as) (h' : Uses (lo + ev.length) fv ws q bs) :
    Uses lo (ev ++ fv) (vs ++ ws) (p ++ q) (as ++ bs) := by
  refine ⟨?_, ?_, ?_, ?_, fun c hc => ?_⟩
  · rw [numbersOf_append, ← h.stored, ← h'.stored]
    exact List.filterMap_append
  · rw [numbersOf_append]
    refine List.Perm.trans ?_ (h.loaded.append h'.loaded)
    rw [show loadedTemps (as ++ bs) = loadedTemps as ++ loadedTemps bs from List.filterMap_append,
      List.perm_iff_count]
    intro k
    simp only [List.count_append]
    omega
  · refine List.pairwise_append.2 ⟨h.order, h'.order, fun a ha b hb k hload hstore => ?_⟩
    subst hload hstore
    have hfirst := h.bounds_of_load ha
    have hsecond := h'.bounds_of_store hb
    omega
  · rw [← h.vars, ← h'.vars]
    exact List.filterMap_append
  · rcases List.mem_append.1 hc with hc | hc
    · exact h.constants c hc
    · exact h'.constants c hc

/-- **A load** of a cell that is pending, if it is a temporary. -/
theorem load {c : Cell} (h : Uses lo ev vs p as) (hp : p.Perm (c.temp?.toList ++ q)) :
    Uses lo ev vs q (as ++ [.load c]) := by
  refine ⟨?_, ?_, ?_, ?_, fun d hd => ?_⟩
  · rw [← h.stored, storedTemps, List.filterMap_append]
    exact List.append_nil _
  · refine List.Perm.trans ?_ h.loaded
    have hloaded : loadedTemps (as ++ [.load c]) = loadedTemps as ++ c.temp?.toList := by
      rw [loadedTemps, List.filterMap_append]
      cases c <;> rfl
    rw [hloaded, List.append_assoc]
    exact hp.symm.append_left _
  · refine List.pairwise_append.2 ⟨h.order, List.pairwise_singleton _ _, fun a _ b hb k _ hstore => ?_⟩
    rw [List.mem_singleton.1 hb] at hstore
    cases hstore
  · rw [← h.vars, storedVars, List.filterMap_append]
    exact List.append_nil _
  · rcases List.mem_append.1 hd with hd | hd
    · exact h.constants d hd
    · cases List.mem_singleton.1 hd

/-- **A number** has its value from the start. -/
theorem number (t : Text) : Uses lo [(.intLit t, true)] [] [lo + 1] [] :=
  ⟨rfl, .refl _, .nil, rfl, fun _ hc => absurd hc List.not_mem_nil⟩

/-- **The store of an operator**: its temporary is the next one. -/
theorem store_temp (op : Operator) (left right : Node) (h : Uses lo ev vs [] as) {k : Nat}
    (hk : k = lo + ev.length + 1) :
    Uses lo (ev ++ [(.binary op left right, true)]) vs [k] (as ++ [.store (.temp k)]) := by
  have hnew : Uses (lo + ev.length) [(.binary op left right, true)] [] [k] [.store (.temp k)] := by
    subst hk
    refine ⟨rfl, .refl _, List.pairwise_singleton _ _, rfl, fun c hc => ?_⟩
    obtain rfl := Access.store.inj (List.mem_singleton.1 hc)
    exact ⟨nofun, nofun⟩
  have happend := h.append hnew
  rwa [List.append_nil] at happend

/-- **The store to a variable.** -/
theorem store_var (x : Text) (h : Uses lo ev vs p as) :
    Uses lo ev (vs ++ [x]) p (as ++ [.store (.var x)]) := by
  have hnew : Uses (lo + ev.length) [] [x] [] [.store (.var x)] := by
    refine ⟨rfl, .refl _, List.pairwise_singleton _ _, rfl, fun c hc => ?_⟩
    obtain rfl := Access.store.inj (List.mem_singleton.1 hc)
    exact ⟨nofun, nofun⟩
  have happend := h.append hnew
  rwa [List.append_nil, List.append_nil] at happend

/-- A value that is not used is not pending. -/
theorem unused {m : Node} (h : Uses lo (ev ++ [(m, true)]) vs [lo + ev.length + 1] as) :
    Uses lo (ev ++ [(m, false)]) vs [] as := by
  obtain ⟨hstored, hloaded, horder, hvars, hconstants⟩ := h
  rw [numbersOf_append, numbersOf_singleton] at hstored hloaded
  refine ⟨?_, ?_, horder, hvars, hconstants⟩
  · rw [numbersOf_append, numbersOf_singleton]
    exact hstored
  · rw [numbersOf_append, numbersOf_singleton, List.append_nil]
    exact ((List.perm_append_right_iff _).1 hloaded).trans (by simp)

end Uses

/-- Statements whose accesses are those. -/
def Accessed (lo : Nat) (ev : List (Node × Bool)) (vs : List Text) (p : List Nat)
    (ss : List Statement) : Prop :=
  ∃ as, Performs ss as ∧ Uses lo ev vs p as

namespace Accessed

variable {lo : Nat} {ev fv : List (Node × Bool)} {vs ws : List Text} {p q : List Nat}
  {ss ts : List Statement}

/-- Code without stores that loads constants at most. -/
theorem of_constants {as : List (Access Cell)} (ht : Performs ts as)
    (h : ∀ a ∈ as, ∃ c : Cell, c.temp? = none ∧ a = .load c) : Accessed lo [] [] [] ts :=
  ⟨as, ht, .of_loads h⟩

theorem quiet (ht : Performs ts []) : Accessed lo [] [] [] ts := ⟨[], ht, .nil⟩

theorem append (h : Accessed lo ev vs p ss) (h' : Accessed (lo + ev.length) fv ws q ts) :
    Accessed lo (ev ++ fv) (vs ++ ws) (p ++ q) (ss ++ ts) := by
  obtain ⟨as, hs, hu⟩ := h
  obtain ⟨bs, ht, hu'⟩ := h'
  exact ⟨as ++ bs, hs.append ht, hu.append hu'⟩

theorem load {c : Cell} (h : Accessed lo ev vs p ss) (ht : Performs ts [.load c])
    (hp : p.Perm (c.temp?.toList ++ q)) : Accessed lo ev vs q (ss ++ ts) := by
  obtain ⟨as, hs, hu⟩ := h
  exact ⟨_, hs.append ht, hu.load hp⟩

theorem store_temp (op : Operator) (left right : Node) (h : Accessed lo ev vs [] ss) {k : Nat}
    (hk : k = lo + ev.length + 1) :
    Accessed lo (ev ++ [(.binary op left right, true)]) vs [k] (ss ++ Code.store (.temp k)) := by
  obtain ⟨as, hs, hu⟩ := h
  exact ⟨_, hs.append (Code.performs_store _), hu.store_temp op left right hk⟩

theorem store_var (x : Text) (h : Accessed lo ev vs p ss) :
    Accessed lo ev (vs ++ [x]) p (ss ++ Code.store (.var x)) := by
  obtain ⟨as, hs, hu⟩ := h
  exact ⟨_, hs.append (Code.performs_store _), hu.store_var x⟩

/-- Code behind that accesses no temporary. -/
theorem andThen (h : Accessed lo ev vs p ss) (ht : Accessed (lo + ev.length) [] [] [] ts) :
    Accessed lo ev vs p (ss ++ ts) := by
  have happend := h.append ht
  rwa [List.append_nil, List.append_nil, List.append_nil] at happend

/-- Code in front that accesses no temporary. -/
theorem before (h : Accessed lo ev vs p ss) (ht : Accessed lo [] [] [] ts) :
    Accessed lo ev vs p (ts ++ ss) :=
  ht.append h

end Accessed

/-! ## Derivations -/

section Derivations

variable {n : Node} {n₀ n₁ : Names} {c : Cell} {e : Emission} {ks : List (Nat × UInt16)}

/-- As many values as were numbered. -/
theorem length_evaluated (used : Bool) (hn : Numbered n₀ n₁ e) (hc : e.contents = n.contents) :
    n₁.temps = n₀.temps + (n.evaluated used).length := by
  have hlength := congrArg List.length hc
  rw [Emission.contents, Node.contents, ← Node.map_fst_evaluated used] at hlength
  simp only [List.length_map] at hlength
  rw [hn.1, hlength]

theorem ExpressionCode.temps_evaluated (h : ExpressionCode n n₀ c n₁ e ks) :
    n₁.temps = n₀.temps + (n.evaluated true).length :=
  length_evaluated true h.numbered h.contents_eq

theorem StatementCode.temps_evaluated (h : StatementCode n n₀ n₁ e ks) :
    n₁.temps = n₀.temps + (n.evaluated true).length :=
  length_evaluated true h.numbered h.contents_eq

/-- The temporary of an operator is the next one behind its operands. -/
theorem number_binary {left right : Node} {n₂ : Names} {l r : Cell} {a b : Emission}
    {ls : List (Nat × UInt16)} (hl : ExpressionCode left n₀ l n₁ a ks)
    (hr : ExpressionCode right n₁ r n₂ b ls) :
    n₂.temps + 1 = n₀.temps + (left.evaluated true ++ right.evaluated true).length + 1 := by
  have := hl.temps_evaluated
  have := hr.temps_evaluated
  rw [List.length_append]
  omega

/-- **Expressions**: their cell is all that is pending. -/
theorem ExpressionCode.accessed (h : ExpressionCode n n₀ c n₁ e ks) :
    Accessed n₀.temps (n.evaluated true) [] c.temp?.toList e.body := by
  induction h with
  | ident _ => exact .quiet ⟨rfl, rfl⟩
  | @intLit t _ _ _ => exact ⟨[], ⟨rfl, rfl⟩, .number t⟩
  | @binary op left right n₀ n₁ n₂ l r a b _ _ hl hr ihl ihr =>
    have hconstants : Accessed (n₀.temps + (left.evaluated true ++ right.evaluated true).length) [] []
        [] (operatorCode op (n₂.labels + 1)) := by
      refine .of_constants (performs_operatorCode op _) ?_
      cases op <;> simp [operatorAccesses, Cell.temp?]
    rw [hl.temps_evaluated] at ihr
    -- both values are pending; the loads use them up, the store makes the new one
    have hcode := ((((ihl.append ihr).load (Code.performs_load0 l) (.refl _)).load
      (q := []) (Code.performs_load3 r) (by rw [List.append_nil])).andThen hconstants).store_temp
        op left right (number_binary hl hr)
    simpa [Node.evaluated, Cell.temp?] using hcode

/-- The variables that are declared. -/
def Emission.scalars (e : Emission) : List Text := e.declarations.filterMap Declaration.scalar?

@[simp] theorem Emission.scalars_append (a b : Emission) : (a ++ b).scalars = a.scalars ++ b.scalars :=
  List.filterMap_append

@[simp] theorem Emission.scalars_code (ss : List Statement) : (code ss).scalars = [] := rfl

theorem ExpressionCode.scalars (h : ExpressionCode n n₀ c n₁ e ks) : e.scalars = [] := by
  rw [Emission.scalars, h.declarations]
  rfl

/-- The value of an expression is used where its cell is loaded. -/
theorem ExpressionCode.accessed_used (h : ExpressionCode n n₀ c n₁ e ks) {ts : List Statement}
    (ht : Performs ts [.load c]) : Accessed n₀.temps (n.evaluated true) [] [] (e.body ++ ts) :=
  h.accessed.load ht (by rw [List.append_nil])

/-- A value that is a statement of its own is not used. -/
theorem ExpressionCode.accessed_unused (h : ExpressionCode n n₀ c n₁ e ks) :
    Accessed n₀.temps (n.evaluated false) [] [] e.body := by
  obtain ⟨as, hs, hu⟩ := h.accessed
  refine ⟨as, hs, ?_⟩
  cases h with
  | ident _ => exact hu
  | @intLit t _ _ _ =>
    have hnumber : Uses n₀.temps ([] ++ [(.intLit t, true)]) [] [n₀.temps + 1] as := hu
    exact hnumber.unused
  | @binary op left right _ n₁ n₂ _ _ _ _ _ _ hl hr =>
    simp only [Node.evaluated, ← List.append_assoc] at hu ⊢
    refine Uses.unused ?_
    rw [← number_binary hl hr]
    exact hu

/-- **Statements**: nothing is pending behind them, and the variables that they store to are those that
    they declare. -/
theorem StatementCode.accessed (h : StatementCode n n₀ n₁ e ks) :
    Accessed n₀.temps (n.evaluated true) e.scalars [] e.body := by
  induction h with
  | nil => exact .quiet ⟨rfl, rfl⟩
  | cons hs _ ihs ihss =>
    rw [hs.temps_evaluated] at ihss
    rw [Emission.scalars_append]
    exact ihs.append ihss
  | @assign n value x _ _ c a _ hn _ hc =>
    have hevaluated : n.evaluated true = value.evaluated true := by rcases hn with rfl | rfl <;> rfl
    have hcode := (hc.accessed_used (Code.performs_load0 c)).store_var x
    rw [List.append_assoc] at hcode
    rw [Emission.scalars_append, hc.scalars, hevaluated]
    exact hcode
  | tableInit _ _ _ => exact .quiet ⟨rfl, rfl⟩
  | @tableAssign x index value _ _ _ i v a b _ _ hi hv =>
    have hsecond := hv.accessed
    rw [hi.temps_evaluated] at hsecond
    -- the value was computed last and is loaded first
    have hcode := (((hi.accessed.append hsecond).load (Code.performs_load3 v) List.perm_append_comm).load
      (q := []) (Code.performs_load0 i) (by rw [List.append_nil])).andThen
        (.quiet (Code.performs_base x))
    simpa [Node.evaluated, hi.scalars, hv.scalars, tableStore, Code.base] using hcode
  | wait _ => exact .quiet ⟨rfl, rfl⟩
  | @ifThen condition ss alternative _ n₁ _ c _ _ _ _ hnone hc _ ih =>
    have hevaluated : (Node.ifElse condition (.block ss) alternative).evaluated true =
        condition.evaluated true ++ (Node.block ss).evaluated true := by
      rcases hnone with rfl | rfl
      · rfl
      · exact congrArg _ (List.append_nil _)
    have htest := hc.accessed_used (Code.performs_test c .bne ⟨.endIf, n₁.labels + 1⟩)
    have hbody := htest.append (hc.temps_evaluated ▸ ih)
    have hcode := hbody.andThen
      (.quiet (Code.performs_jump .b ⟨.endIf, n₁.labels + 1⟩ ⟨.endIf, n₁.labels + 1⟩))
    rw [hevaluated]
    simpa [hc.scalars] using hcode
  | @ifElse condition t ss ts _ n₁ n₂ _ c _ _ _ _ _ _ hc hss _ ihss ihts =>
    have htest := hc.accessed_used (Code.performs_test c .bne ⟨.alternative, n₁.labels + 1⟩)
    have hbody := htest.append (hc.temps_evaluated ▸ ihss)
    have hjump := hbody.andThen
      (.quiet (Code.performs_jump .b ⟨.endIf, n₁.labels + 1⟩ ⟨.alternative, n₁.labels + 1⟩))
    have htemps := hss.temps_evaluated
    simp only [hc.temps_evaluated, Nat.add_assoc, ← List.length_append] at htemps
    rw [htemps] at ihts
    have hcode := (hjump.append ihts).andThen
      (.quiet (Code.performs_mark ⟨.endIf, n₁.labels + 1⟩))
    simpa [Node.evaluated, hc.scalars] using hcode
  | @whileLoop condition ss n₀ n₁ _ c _ _ _ _ hc _ ih =>
    have htest := hc.accessed_used (Code.performs_test c .bne ⟨.endLoop, n₀.labels + 1⟩)
    rw [hc.temps_evaluated] at ih
    have hcode := ((htest.append ih).andThen (.quiet (Code.performs_jump .b ⟨.loop, n₀.labels + 1⟩
      ⟨.endLoop, n₀.labels + 1⟩))).before (.quiet (Code.performs_mark ⟨.loop, n₀.labels + 1⟩))
    simpa [Node.evaluated, hc.scalars] using hcode
  | exprStmt hc =>
    rw [hc.scalars]
    exact hc.accessed_unused

end Derivations

/-! ## One temporary -/

/-- What is told from one element is found as often as that element comes. -/
theorem count_filterMap_of_iff {α β : Type} [DecidableEq α] [DecidableEq β] {f : α → Option β} {a : α}
    {b : β} (h : ∀ x, f x = some b ↔ x = a) (l : List α) : (l.filterMap f).count b = l.count a := by
  rw [List.count_filterMap, List.count]
  exact List.countP_congr fun x _ => by simp [h]

theorem count_loadedTemps (as : List (Access Cell)) (k : Nat) :
    (loadedTemps as).count k = as.count (.load (.temp k)) := by
  refine count_filterMap_of_iff (fun a => ?_) as
  rcases a with c | c <;> cases c <;> simp [Access.loaded?, Cell.temp?]

theorem count_storedTemps (as : List (Access Cell)) (k : Nat) :
    (storedTemps as).count k = as.count (.store (.temp k)) := by
  refine count_filterMap_of_iff (fun a => ?_) as
  rcases a with c | c <;> cases c <;> simp [Access.stored?, Cell.temp?]

namespace Uses

variable {lo i : Nat} {ev : List (Node × Bool)} {vs : List Text} {as : List (Access Cell)} {m : Node}
  {used : Bool}

/-- A value that is used is loaded once, another not at all. -/
theorem count_load (h : Uses lo ev vs [] as) (hi : ev[i]? = some (m, used)) :
    as.count (.load (.temp (lo + i + 1))) = if used = true then 1 else 0 := by
  have hloaded := h.loaded
  rw [List.append_nil] at hloaded
  rw [← count_loadedTemps, hloaded.count_eq, count_numbersOf hi]

/-- The temporary of an operator is stored to once, that of a number not at all. -/
theorem count_store (h : Uses lo ev vs [] as) (hi : ev[i]? = some (m, used)) :
    as.count (.store (.temp (lo + i + 1))) = if m.isOperator = true then 1 else 0 := by
  rw [← count_storedTemps, h.stored, count_numbersOf hi]

/-- The one store of an operator comes before what loads its temporary. -/
theorem store_first (h : Uses lo ev vs [] as) (hi : ev[i]? = some (m, used))
    (hm : m.isOperator = true) :
    ∃ before after, as = before ++ .store (.temp (lo + i + 1)) :: after ∧
      .store (.temp (lo + i + 1)) ∉ before ++ after ∧ .load (.temp (lo + i + 1)) ∉ before := by
  have hcount := h.count_store hi
  rw [if_pos hm] at hcount
  have hmem : Access.store (.temp (lo + i + 1)) ∈ as :=
    List.count_pos_iff.1 (by rw [hcount]; exact Nat.one_pos)
  obtain ⟨before, after, rfl⟩ := List.append_of_mem hmem
  refine ⟨before, after, rfl, ?_, fun hload => ?_⟩
  · rw [List.count_append, List.count_cons_self] at hcount
    rw [← List.count_eq_zero, List.count_append]
    omega
  · exact (List.pairwise_append.1 h.order).2.2 _ hload _ List.mem_cons_self _ rfl rfl

end Uses

/-! ## Programs -/

/-- The accesses of a program that has code, as accesses to cells. -/
theorem accesses_derived {n : Node} {s : Streams} (hn : n.WellNamed) (h : Streams.ofProgram n = .ok s) :
    ∃ as : List (Access Cell), s.accesses = as.map (Access.map Cell.name) ∧
      Uses 0 (n.evaluated true) n.assigned [] as := by
  obtain ⟨ss, last, ks, rfl, hcode, rfl⟩ := ofProgram_derived h
  obtain ⟨as, hperforms, huses⟩ := hcode.accessed
  have hreadable : Statement.AllReadable (Node.program ss).emission.body :=
    (keeps_program _ hn Names.fresh).1.readable
  have hvars : (Node.program ss).emission.scalars = (Node.program ss).assigned := by
    rw [Node.assigned_program, Emission.scalars, hcode.declarations_eq, Node.assigned]
    exact (Node.collect_of_declaration Node.assigned?_eq _).symm
  refine ⟨as, ?_, hvars ▸ huses⟩
  rw [Streams.accesses, Streams.body_extend, adjacent_bodyLine hreadable, hperforms.accesses]

/-- The temporaries of a program that has code. -/
theorem temps_derived {n : Node} {s : Streams} (h : Streams.ofProgram n = .ok s) :
    s.temps.length = (n.evaluated true).length ∧ ∀ i m used, (n.evaluated true)[i]? = some (m, used) →
      ∃ v, m.firstValue? = some v ∧
        s.temps[i]? = some ((Cell.temp (i + 1)).name, Streams.cellContent v) := by
  obtain ⟨ss, last, ks, rfl, hcode, rfl⟩ := ofProgram_derived h
  have hcontents : (Node.program ss).emission.contents =
      ((Node.program ss).evaluated true).map fun d => d.1.firstValue? := by
    rw [hcode.contents_eq, ← Node.contents_program, Node.contents, ← Node.map_fst_evaluated true,
      List.map_map]
    rfl
  rw [Streams.temps_extend]
  refine ⟨?_, fun i m used hi => ?_⟩
  · have hlength := congrArg List.length hcontents
    rwa [Emission.contents, List.length_map, List.length_map, ← List.length_map] at hlength
  · have hvalue := congrArg (fun l => l[i]?) hcontents
    simp only [Emission.contents, List.getElem?_map, hi, Option.map_some] at hvalue
    cases ht : (Node.program ss).emission.temps[i]? with
    | none => rw [ht] at hvalue; cases hvalue
    | some t =>
      rw [ht] at hvalue
      have hnumber : ((Node.program ss).emission.temps.map Prod.fst)[i]? = some t.1 := by
        rw [List.getElem?_map, ht]
        rfl
      rw [hcode.numbered.2, List.getElem?_range' (List.getElem?_eq_some_iff.1 ht).1] at hnumber
      refine ⟨t.2, (Option.some.inj hvalue).symm, ?_⟩
      have hfirst : i + 1 = t.1 := by
        have : Names.fresh.temps + 1 + 1 * i = t.1 := Option.some.inj hnumber
        simp only [Names.fresh] at this
        omega
      rw [List.getElem?_map, ht, hfirst]
      rfl

/-- The names of variables, among the names of cells. -/
theorem storedVars_eq (as : List (Access Cell)) :
    ((as.map (Access.map Cell.name)).filterMap Access.stored?).filter
        (fun x => "var_".toList.isPrefixOf x) =
      (storedVars as).map fun x => (Cell.var x).name := by
  induction as with
  | nil => rfl
  | cons a as ih =>
    rcases a with c | c
    · exact ih
    · have hrest : ((Access.store c :: as).map (Access.map Cell.name)).filterMap Access.stored? =
          c.name :: (as.map (Access.map Cell.name)).filterMap Access.stored? := rfl
      rw [hrest, List.filter_cons, ih]
      cases c <;> rfl

/-- **Temporaries are written once and used once.**  Let a program have code, and its names be
    identifiers.  Its temporaries are those of its numbers and its operators, in the order of
    evaluation.  In the body the temporary of a number is never stored to; that of an operator is
    stored to once, before it is loaded; each is loaded once if its value is used, and never if its value
    is a statement of its own.  The constants are never stored to.  The stores to variables are those of
    the initializations and assignments, one for each, in their order. -/
theorem accesses_of_program {n : Node} {s : Streams} (hn : n.WellNamed)
    (h : Streams.ofProgram n = .ok s) :
    (n.evaluated true).map Prod.fst = n.postorder.filter Node.takesTemporary ∧
    s.temps.length = (n.evaluated true).length ∧
    (∀ i m used, (n.evaluated true)[i]? = some (m, used) →
      let t := (Cell.temp (i + 1)).name
      (∃ v, m.firstValue? = some v ∧ s.temps[i]? = some (t, Streams.cellContent v)) ∧
      (∀ text, m = .intLit text → .store t ∉ s.accesses) ∧
      (∀ op left right, m = .binary op left right →
        ∃ before after, s.accesses = before ++ .store t :: after ∧ .store t ∉ before ++ after ∧
          .load t ∉ before) ∧
      s.accesses.count (.load t) = if used = true then 1 else 0) ∧
    .store Cell.zero.name ∉ s.accesses ∧ .store Cell.one.name ∉ s.accesses ∧
    (s.accesses.filterMap Access.stored?).filter (fun x => "var_".toList.isPrefixOf x) =
      n.assigned.map fun x => (Cell.var x).name := by
  obtain ⟨as, heq, huses⟩ := accesses_derived hn h
  obtain ⟨hlength, htemps⟩ := temps_derived h
  have hinj : Function.Injective (Access.map Cell.name) :=
    fun _ _ => Access.map_injective fun _ _ => Cell.name_injective
  have hmem (a : Access Cell) (bs : List (Access Cell)) :
      a.map Cell.name ∈ bs.map (Access.map Cell.name) ↔ a ∈ bs := List.mem_map_of_injective hinj
  have hcount (a : Access Cell) : s.accesses.count (a.map Cell.name) = as.count a := by
    rw [heq, List.count_map_of_injective as _ hinj]
  refine ⟨Node.map_fst_evaluated true n, hlength, fun i m used hi => ?_, ?_, ?_, ?_⟩
  · have hnumber : 0 + i + 1 = i + 1 := by omega
    have hload := huses.count_load hi
    have hstore := huses.count_store hi
    rw [hnumber] at hload hstore
    refine ⟨htemps i m used hi, fun text hm => ?_, fun op left right hm => ?_, ?_⟩
    · rw [hm] at hstore
      rw [heq]
      exact fun hstored => List.count_eq_zero.1 hstore ((hmem (.store (.temp (i + 1))) as).1 hstored)
    · obtain ⟨before, after, rfl, hothers, hloads⟩ := huses.store_first hi (by rw [hm]; rfl)
      rw [hnumber] at heq hothers hloads
      refine ⟨before.map (Access.map Cell.name), after.map (Access.map Cell.name), ?_, ?_, ?_⟩
      · rw [heq, List.map_append]
        rfl
      · rw [← List.map_append]
        exact fun hmap => hothers ((hmem (.store (.temp (i + 1))) _).1 hmap)
      · exact fun hmap => hloads ((hmem (.load (.temp (i + 1))) _).1 hmap)
    · exact (hcount (.load (.temp (i + 1)))).trans hload
  · rw [heq]
    exact fun hmap => (huses.constants .zero ((hmem (.store .zero) as).1 hmap)).1 rfl
  · rw [heq]
    exact fun hmap => (huses.constants .one ((hmem (.store .one) as).1 hmap)).2 rfl
  · rw [heq, storedVars_eq, huses.vars]

/-- A comparison of a sum, a loop with a value that is a statement of its own, and a store to a table. -/
def Node.nested : Node := .program [
  .scalarInit ['x'] (.binary .lt (.binary .add (.intLit ['1']) (.ident ['y'])) (.intLit ['2'])),
  .whileLoop (.binary .eq (.ident ['x']) (.intLit ['1'])) (.block [
    .exprStmt (.binary .mul (.intLit ['3']) (.ident ['x'])),
    .assignAt ['t'] (.ident ['x']) (.binary .sub (.intLit ['9']) (.ident ['y'])),
    .assign ['x'] (.ident ['y'])])]

/-- The second temporary holds the value of the sum, the eighth one that is not used. -/
theorem accesses_of_nested :
    let s := (Generator.new.run (program Node.nested)).2.streams
    Node.nested.WellNamed ∧ Streams.ofProgram Node.nested = .ok s ∧ s.temps.length = 10 ∧
      s.accesses.count (.load "temp_2".toList) = 1 ∧ s.accesses.count (.load "temp_8".toList) = 0 ∧
      .store "temp_1".toList ∉ s.accesses ∧
      (s.accesses.filterMap Access.stored?).filter (fun x => "var_".toList.isPrefixOf x) =
        ["var_x".toList, "var_x".toList] := by
  intro s
  have hnames : Node.nested.WellNamed := by decide
  have hstreams : Streams.ofProgram Node.nested = .ok s := rfl
  obtain ⟨-, hlength, htemps, -, -, hvars⟩ := accesses_of_program hnames hstreams
  obtain ⟨-, hnumber, -, -⟩ := htemps 0 (.intLit ['1']) true rfl
  obtain ⟨-, -, -, hsum⟩ := htemps 1 (.binary .add (.intLit ['1']) (.ident ['y'])) true rfl
  obtain ⟨-, -, -, hunused⟩ := htemps 7 (.binary .mul (.intLit ['3']) (.ident ['x'])) false rfl
  exact ⟨hnames, hstreams, hlength, hsum, hunused, hnumber ['1'] rfl, hvars⟩

end Minicore
