/-
  GROWTH — what a generator has gathered stays, whatever it is asked for next.

  Problem: a piece may fail anywhere inside a tree, and what was added before the fault is not taken
  back.  A generator that goes on after it relies on all four streams and both counters being as they
  were, with additions.

  1. **Relation** — `Streams.Grows initialized s t`: body and temporaries have additions behind them;
     variables too, with the value zero; tables keep their places, and their contents unless they are
     among `initialized`.  It is reflexive and transitive.

  2. **Steps** — one declaration grows the streams (`grows_declare`), so a row of them does, so a piece
     does (`grows_perform`), whether or not it fails.

  3. **Runs** — any pieces one behind another (`grows_performAll`).
-/
import Minicore.Proofs.Codegen.Context

namespace Minicore

/-! ## The relation -/

namespace Streams

/-- The streams `t` are the streams `s` with additions; only the tables `initialized` may have other
    contents. -/
structure Grows (initialized : Text → Prop) (s t : Streams) : Prop where
  body : s.body <+: t.body
  temps : s.temps <+: t.temps
  vars : ∃ new, t.vars.entries = s.vars.entries ++ new ∧ ∀ d ∈ new, d.2 = "0x0".toList
  tables : ∀ (i : Nat) (name content : Text), s.tables.entries[i]? = some (name, content) →
    ∃ content', t.tables.entries[i]? = some (name, content') ∧ (¬ initialized name → content' = content)

namespace Grows

variable {I J : Text → Prop} {s t u : Streams}

theorem refl (s : Streams) : Grows I s s :=
  ⟨List.prefix_rfl, List.prefix_rfl, ⟨[], (List.append_nil _).symm, List.forall_mem_nil _⟩,
    fun _ _ content h => ⟨content, h, fun _ => rfl⟩⟩

theorem trans (h : Grows I s t) (h' : Grows I t u) : Grows I s u := by
  obtain ⟨new, hnew, hzero⟩ := h.vars
  obtain ⟨new', hnew', hzero'⟩ := h'.vars
  refine ⟨h.body.trans h'.body, h.temps.trans h'.temps, ⟨new ++ new', ?_, ?_⟩,
    fun i name content hi => ?_⟩
  · rw [hnew', hnew, List.append_assoc]
  · exact List.forall_mem_append.2 ⟨hzero, hzero'⟩
  · obtain ⟨mid, hmid, hkept⟩ := h.tables i name content hi
    obtain ⟨last, hlast, hkept'⟩ := h'.tables i name mid hmid
    exact ⟨last, hlast, fun hnot => (hkept' hnot).trans (hkept hnot)⟩

theorem mono (h : Grows I s t) (hIJ : ∀ name, I name → J name) : Grows J s t :=
  ⟨h.body, h.temps, h.vars, fun i name content hi => by
    obtain ⟨content', hi', hkept⟩ := h.tables i name content hi
    exact ⟨content', hi', fun hnot => hkept fun hI => hnot (hIJ name hI)⟩⟩

end Grows

/-! ## Steps -/

variable {I : Text → Prop}

/-- A table that is given a content: the others stay as they are. -/
theorem tables_insert (m : OrderedMap Text) {x : Text} (hx : I x) (v : Text) (i : Nat)
    (name content : Text) (h : m.entries[i]? = some (name, content)) :
    ∃ content', (m.insert x v).entries[i]? = some (name, content') ∧ (¬ I name → content' = content) := by
  rcases OrderedMap.entries_insert m x v with ⟨before, w, after, hm, -, hinsert⟩ | ⟨-, hinsert⟩
  · rw [hinsert]
    rw [hm, List.getElem?_append] at h
    rw [List.getElem?_append]
    by_cases hi : i < before.length
    · rw [if_pos hi] at h ⊢
      exact ⟨content, h, fun _ => rfl⟩
    · rw [if_neg hi] at h ⊢
      cases hj : i - before.length with
      | zero =>
        rw [hj, List.getElem?_cons_zero] at h
        obtain ⟨rfl, rfl⟩ := Prod.mk.inj (Option.some.inj h)
        exact ⟨v, rfl, fun hnot => absurd hx hnot⟩
      | succ j =>
        rw [hj, List.getElem?_cons_succ] at h
        exact ⟨content, h, fun _ => rfl⟩
  · rw [hinsert]
    have hi : i < m.entries.length := (List.getElem?_eq_some_iff.1 h).1
    exact ⟨content, by rw [List.getElem?_append_left hi, h], fun _ => rfl⟩

/-- **One declaration.** -/
theorem grows_declare (s : Streams) {d : Declaration}
    (hd : ∀ x size default, d = .table x size default → I (tableName x)) : Grows I s (s.declare d) := by
  have hsame : Grows I s s := .refl s
  cases d with
  | «variable» x =>
    have hvars : ∃ new, (s.vars.insertNew (Cell.var x).name (cellContent 0)).entries =
        s.vars.entries ++ new ∧ ∀ d ∈ new, d.2 = "0x0".toList := by
      rcases OrderedMap.entries_insertNew s.vars (Cell.var x).name (cellContent 0) with
        ⟨-, hold⟩ | ⟨-, hnew⟩
      · rw [hold]
        exact hsame.vars
      · have hzero : cellContent 0 = "0x0".toList := by decide
        rw [hnew]
        exact ⟨_, rfl, List.forall_mem_singleton.2 hzero⟩
    exact ⟨hsame.body, hsame.temps, hvars, hsame.tables⟩
  | table x size default =>
    exact ⟨hsame.body, hsame.temps, hsame.vars, tables_insert s.tables (hd x size default rfl) _⟩

/-- **A row of additions.** -/
theorem grows_gather (s : Streams) (lines : List Text) (temps : List (Text × Text))
    {ds : List Declaration}
    (hds : ∀ x size default, .table x size default ∈ ds → I (tableName x)) :
    Grows I s (s.gather lines temps ds) := by
  have hrow : ∀ (ds : List Declaration) (t : Streams),
      (∀ x size default, .table x size default ∈ ds → I (tableName x)) →
        Grows I t (ds.foldl declare t) := by
    intro ds
    induction ds with
    | nil => exact fun t _ => .refl t
    | cons d ds ih =>
      intro t hds
      have hfirst : Grows I t (t.declare d) :=
        grows_declare t fun x size default hd => hds x size default (by rw [hd]; exact List.mem_cons_self)
      exact hfirst.trans (ih _ fun x size default hd => hds x size default (List.mem_cons_of_mem _ hd))
  have hsame : Grows I s s := .refl s
  have hlines : Grows I s { s with body := s.body ++ lines, temps := s.temps ++ temps } :=
    ⟨List.prefix_append _ _, List.prefix_append _ _, hsame.vars, hsame.tables⟩
  exact hlines.trans (hrow ds _ hds)

end Streams

namespace Generator

/-- A table that the piece initializes. -/
def Reinitialized (p : Piece) (name : Text) : Prop := ∃ x, name = tableName x ∧ p.node.Initializes x

/-- **One piece**, whether or not there is code for it. -/
theorem grows_perform (g : Generator) (p : Piece) :
    Streams.Grows (Reinitialized p) g.streams (g.perform p).streams := by
  have hstep := g.alongside p g.names
  rw [perform_eq, run, Streams.extend_eq_gather]
  exact Streams.grows_gather _ _ _ fun x size default hd => ⟨x, rfl, hstep.initialized x size default hd⟩

/-- The counters after a piece: the temporaries that were added are counted. -/
theorem counted_perform (g : Generator) (p : Piece) :
    ∃ k, (g.perform p).names = g.names + k ∧
      (g.perform p).streams.temps.length = g.streams.temps.length + k.temps := by
  obtain ⟨k, hk, hnames, -⟩ := (g.alongside p g.names).names
  refine ⟨Names.fresh + k, ?_, ?_⟩
  · rw [perform_eq]
    exact hnames
  · rw [perform_eq, run, Streams.extend_eq_gather, Streams.temps_gather, List.length_append,
      List.length_map]
    show _ = _ + (0 + k.temps)
    rw [Nat.zero_add, hk]

/-! ## Runs -/

/-- **Any pieces** one behind another, with faults between. -/
theorem grows_performAll (g : Generator) (pieces : List Piece) :
    Streams.Grows (fun name => ∃ p ∈ pieces, Reinitialized p name) g.streams
        (g.performAll pieces).streams ∧
      ∃ k, (g.performAll pieces).names = g.names + k ∧
        (g.performAll pieces).streams.temps.length = g.streams.temps.length + k.temps := by
  induction pieces generalizing g with
  | nil => exact ⟨.refl _, Names.fresh, rfl, rfl⟩
  | cons p pieces ih =>
    obtain ⟨hgrows, k, hk, hlength⟩ := ih (g.perform p)
    obtain ⟨k₀, hk₀, hlength₀⟩ := g.counted_perform p
    have hfirst := (g.grows_perform p).mono fun name hname =>
      (⟨p, List.mem_cons_self, hname⟩ : ∃ q ∈ p :: pieces, Reinitialized q name)
    have hrest := hgrows.mono fun name ⟨q, hq, hname⟩ =>
      (⟨q, List.mem_cons_of_mem _ hq, hname⟩ : ∃ q ∈ p :: pieces, Reinitialized q name)
    refine ⟨hfirst.trans hrest, k₀ + k, ?_, ?_⟩
    · show ((g.perform p).performAll pieces).names = _
      rw [hk, hk₀, Names.add_assoc]
    · show ((g.perform p).performAll pieces).streams.temps.length = _
      rw [hlength, hlength₀, Names.temps_add, Nat.add_assoc]

/-- **Streams only grow.**  Whatever a generator has gathered and whatever tree it is asked for, as a
    program, a statement or an expression, and whether or not it fails, at whatever depth: the body and
    the temporaries have additions behind them; every variable keeps its place and its content, and new
    ones come behind with the content zero; every table keeps its place, and its content unless the
    tree has an initialization of that table; and no counter goes back, that of the temporaries going
    on by as many as were added. -/
theorem perform_grows (g : Generator) (p : Piece) :
    Streams.Grows (fun name => ∃ x, name = tableName x ∧
        ∃ size default, Node.tableInit x size default ∈ p.node.subnodes)
      g.streams (g.perform p).streams ∧
    g.names.labels ≤ (g.perform p).names.labels ∧
    ∃ k, (g.perform p).names.temps = g.names.temps + k ∧
      (g.perform p).streams.temps.length = g.streams.temps.length + k := by
  obtain ⟨k, hk, hlength⟩ := g.counted_perform p
  refine ⟨g.grows_perform p, ?_, k.temps, ?_, hlength⟩
  · rw [hk]
    exact Nat.le_add_right _ _
  · rw [hk]
    rfl

/-- A fault inside a loop body: what was declared before it stays declared. -/
example : ((Generator.withNames ⟨4, 4⟩).perform (.statement (.whileLoop (.intLit ['1'])
    (.block [.assign ['x'] (.intLit ['2']), .wait ['y'], .assign ['z'] (.intLit ['3'])])))).streams.vars.entries =
      [("var_x".toList, "0x0".toList)] := by decide

end Generator

end Minicore
