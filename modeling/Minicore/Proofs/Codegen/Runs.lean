/-
  RUNS — fresh names over several generators.

  Problem: generated programs are put together from pieces that different generators made, one after
  another, with failed attempts between.  What keeps their names apart is only that each generator
  numbers on from the counters of the one before.

  1. **Kinds** — `GeneratedName` lists every kind of name that is generated; different names have
     different texts, also across kinds (`GeneratedName.text_injective`).

  2. **One generator** — what it has gathered is one emission, sound for the counters that it started
     with: at the start (`gathers_withNames`), and after each piece, whether or not the piece failed
     (`Gathers.perform`), hence after any pieces (`Gathers.performAll`).

  3. **A row of them** — their emissions, one behind another, are sound from the first counters to the
     last (`sound_of_relay`).
-/
import Minicore.Codegen.Relay
import Minicore.Proofs.Codegen.Steps
import Mathlib.Data.List.Count

namespace Minicore

open Statement (AllReadable names isCode)

/-! ## Kinds of names -/

/-- A name in generated code. -/
inductive GeneratedName where
  | label (l : Label)
  /-- A temporary, a variable or a constant. -/
  | cell (c : Cell)
  | table (x : Text)
  | halt
  deriving Repr, DecidableEq

namespace GeneratedName

/-- The name as it is written. -/
def text : GeneratedName → Text
  | .label l => l.name
  | .cell c => c.name
  | .table x => tableName x
  | .halt => haltName

/-- The number of the kind. -/
def kind : GeneratedName → Nat
  | .label _ => 0
  | .cell _ => 1
  | .table _ => 2
  | .halt => 3

/-- The kind of the names with that stem. -/
def kindOf (stem : Text) : Nat :=
  if stem = "temp".toList ∨ stem = "var".toList ∨ stem = "const".toList then 1
  else if stem = "tab".toList then 2
  else if stem = "halt".toList then 3
  else 0

/-- What stands before the first underscore tells the kind. -/
theorem kindOf_stem (a : GeneratedName) : kindOf a.text.stem = a.kind := by
  cases a with
  | label l =>
    show kindOf l.name.stem = 0
    rw [Label.stem_name]
    cases l.role <;> rfl
  | cell c =>
    show kindOf c.name.stem = 1
    cases c with
    | temp n => rw [Cell.stem_temp]; rfl
    | var x => rw [Cell.stem_var]; rfl
    | zero => rfl
    | one => rfl
  | table x =>
    show kindOf (tableName x).stem = 2
    rw [stem_tableName]
    rfl
  | halt => rfl

/-- **Different names have different texts.** -/
theorem text_injective {a b : GeneratedName} (h : a.text = b.text) : a = b := by
  have hkind : a.kind = b.kind := by rw [← kindOf_stem, ← kindOf_stem, h]
  cases a with
  | label l =>
    cases b with
    | label m => rw [Label.name_injective h]
    | _ => simp [kind] at hkind
  | cell c =>
    cases b with
    | cell d => rw [Cell.name_injective h]
    | _ => simp [kind] at hkind
  | table x =>
    cases b with
    | table y => rw [tableName_injective h]
    | _ => simp [kind] at hkind
  | halt =>
    cases b with
    | halt => rfl
    | _ => simp [kind] at hkind

end GeneratedName

/-! ## Streams -/

namespace Streams

/-- Gathering two emissions is gathering the one behind the other. -/
theorem extend_append (s : Streams) (a b : Emission) : s.extend (a ++ b) = (s.extend a).extend b := by
  simp only [extend, foldl_declare, Emission.body_append, Emission.temps_append,
    Emission.declarations_append, List.map_append, List.foldl_append, List.append_assoc]

theorem keys_tables_extend (e : Emission) : (empty.extend e).tables.keys = e.tables.keys := by
  rw [OrderedMap.keys, tables_extend, List.map_map]
  rfl

theorem keys_vars_extend (e : Emission) : (empty.extend e).vars.keys = e.varNames := by
  rw [OrderedMap.keys, vars_extend, List.map_map]
  exact List.map_id _

end Streams

/-- Emissions one behind another. -/
def Emission.concat (es : List Emission) : Emission := es.foldr (· ++ ·) Emission.empty

theorem Emission.concat_cons (e : Emission) (es : List Emission) : concat (e :: es) = e ++ concat es :=
  rfl

/-- The body lines of several generators are those of their emissions one behind another. -/
theorem body_concat (es : List Emission) :
    (es.map Streams.empty.extend).flatMap Streams.body =
      (Emission.concat es).body.map Streams.bodyLine := by
  induction es with
  | nil => rfl
  | cons e es ih =>
    rw [List.map_cons, List.flatMap_cons, ih, Emission.concat_cons, Emission.body_append,
      List.map_append, Streams.body_extend]

theorem temps_concat (es : List Emission) :
    ((es.map Streams.empty.extend).flatMap fun s => s.temps.map Prod.fst) =
      (Emission.concat es).temps.map fun t => (Cell.temp t.1).name := by
  induction es with
  | nil => rfl
  | cons e es ih =>
    rw [List.map_cons, List.flatMap_cons, ih, Emission.concat_cons, Emission.temps_append,
      List.map_append, Streams.temps_extend, List.map_map]
    rfl

theorem declarations_concat (es : List Emission) :
    (Emission.concat es).declarations = es.flatMap Emission.declarations := by
  induction es with
  | nil => rfl
  | cons e es ih => rw [List.flatMap_cons, Emission.concat_cons, Emission.declarations_append, ih]

/-! ## One generator -/

/-- A generator that started with the counters `start` has gathered the emission `e`. -/
structure Gathers (start : Names) (g : Generator) (e : Emission) : Prop where
  streams : g.streams = Streams.empty.extend e
  sound : Sound [] start g.names e

theorem gathers_withNames (start : Names) :
    Gathers start (Generator.withNames start) Emission.empty :=
  ⟨rfl, .empty start⟩

namespace Gathers

variable {start : Names} {g : Generator} {e : Emission}

theorem run {α : Type} {Q : α → Prop} {m : Gen α} (h : Gathers start g e) (hm : Gen.Keeps [] Q m) :
    Gathers start (g.run m).2 (e ++ (m g.names).emission) := by
  refine ⟨?_, h.sound.append (hm g.names).1⟩
  rw [Streams.extend_append, ← h.streams]
  rfl

/-- **One piece** adds an emission, whether or not there was code for all of it. -/
theorem perform (h : Gathers start g e) {p : Piece} (hp : p.node.WellNamed) :
    ∃ e', Gathers start (g.perform p) e' := by
  cases p with
  | program n => exact ⟨_, h.run (keeps_program n hp)⟩
  | statement n => exact ⟨_, h.run (keeps_statement n hp)⟩
  | expression n => exact ⟨_, h.run (keeps_expression n)⟩

/-- **Any pieces.** -/
theorem performAll (h : Gathers start g e) {pieces : List Piece}
    (hp : ∀ p ∈ pieces, p.node.WellNamed) : ∃ e', Gathers start (g.performAll pieces) e' := by
  induction pieces generalizing g e with
  | nil => exact ⟨e, h⟩
  | cons p pieces ih =>
    obtain ⟨hfirst, hrest⟩ := List.forall_mem_cons.1 hp
    obtain ⟨e', h'⟩ := h.perform hfirst
    exact ih h' hrest

end Gathers

/-! ## A row of generators -/

/-- **Handovers**: what a row of generators gathers is sound from the first counters to the last. -/
theorem sound_of_relay (start : Names) {run : List (List Piece)}
    (h : ∀ pieces ∈ run, ∀ p ∈ pieces, p.node.WellNamed) :
    ∃ es : List Emission, (relay start run).1 = es.map Streams.empty.extend ∧
      Sound [] start (relay start run).2 (Emission.concat es) := by
  induction run generalizing start with
  | nil => exact ⟨[], rfl, .empty start⟩
  | cons pieces rest ih =>
    obtain ⟨hfirst, hrest⟩ := List.forall_mem_cons.1 h
    obtain ⟨e, hstreams, hsound⟩ := (gathers_withNames start).performAll hfirst
    -- the next generator starts with the counters of this one
    obtain ⟨es, heq, hsounds⟩ := ih ((Generator.withNames start).performAll pieces).names hrest
    refine ⟨e :: es, ?_, hsound.append hsounds⟩
    rw [relay, List.map_cons, ← hstreams, ← heq]

/-! ## Label lines -/

/-- The line of a label is the line of that label's statement only. -/
theorem eq_label_of_bodyLine {s : Statement} (hs : s.Readable) {l : Label}
    (h : Streams.bodyLine s = l.name) : s = .label l.name := by
  have hline := (Statement.read_bodyLine hs).2
  have hlabel := (Statement.read_bodyLine (s := .label l.name) l.isSymbol_name).2
  rw [h] at hline
  exact Option.some.inj (Except.ok.inj (hline.symm.trans hlabel))

/-- Among the lines of readable statements a label comes as often as among their names. -/
theorem count_bodyLine_le {ss : List Statement} (h : AllReadable ss) (l : Label) :
    (ss.map Streams.bodyLine).count l.name ≤ (names ss).count l.name := by
  induction ss with
  | nil => exact Nat.le_refl 0
  | cons s ss ih =>
    obtain ⟨hs, hss⟩ := List.forall_mem_cons.1 h
    have hrest := ih hss
    have hle : (names ss).count l.name ≤ (names (s :: ss)).count l.name := by
      rw [← List.singleton_append, Statement.names_append, List.count_append]
      exact Nat.le_add_left _ _
    rw [List.map_cons, List.count_cons]
    by_cases hline : Streams.bodyLine s = l.name
    · obtain rfl := eq_label_of_bodyLine hs hline
      have hnames : names (Statement.label l.name :: ss) = l.name :: names ss := rfl
      rw [hnames, List.count_cons_self, if_pos (by simpa using hline)]
      omega
    · rw [if_neg (by simpa using hline)]
      omega

namespace Sound

variable {n₀ n₁ : Names} {e : Emission}

/-- A line of sound code is an instruction, or the line of a label whose number was taken. -/
theorem line_cases (h : Sound [] n₀ n₁ e) {line : Text} (hline : line ∈ e.body.map Streams.bodyLine) :
    (∃ op param, Statement.read line = .ok (some (.code op param))) ∨
      ∃ l : Label, line = l.name ∧ n₀.labels < l.number ∧ l.number ≤ n₁.labels := by
  obtain ⟨ls, hnames, hcount⟩ := h.labels
  obtain ⟨s, hs, rfl⟩ := List.mem_map.1 hline
  have hcode := List.all_eq_true.1 h.code s hs
  cases s with
  | code op param => exact .inl ⟨op, param, (Statement.read_bodyLine (h.readable _ hs)).2⟩
  | data name values => cases hcode
  | label name =>
    have hname : name ∈ names e.body := List.mem_filterMap.2 ⟨_, hs, rfl⟩
    rw [hnames] at hname
    obtain ⟨l, hl, rfl⟩ := List.mem_map.1 hname
    -- a label that comes has a number that was taken on the way
    have hallowed : n₀.labels < l.number ∧ l.number ≤ n₁.labels := by
      have hone := List.count_pos_iff.2 hl
      have hle := hcount l
      rw [List.count_nil, Nat.zero_add] at hle
      by_contra hnot
      rw [allowance, if_neg hnot] at hle
      omega
    exact .inr ⟨l, rfl, hallowed⟩

/-- No label line comes twice. -/
theorem count_line_le (h : Sound [] n₀ n₁ e) (l : Label) :
    (e.body.map Streams.bodyLine).count l.name ≤ 1 := by
  obtain ⟨ls, hnames, hcount⟩ := h.labels
  have hlines := count_bodyLine_le h.readable l
  rw [hnames, List.count_map_of_injective ls Label.name (fun _ _ => Label.name_injective)] at hlines
  have hallowed : allowance n₀.labels n₁.labels l ≤ 1 := by
    unfold allowance
    split <;> omega
  have hle := hcount l
  rw [List.count_nil, Nat.zero_add] at hle
  omega

end Sound

/-! ## The whole run -/

/-- **Fresh names over a run.**  Let generators be asked for any trees with identifiers for their names,
    one piece after another, whether or not they fail, each generator going on behind the counters
    that the one before it ended with.  Over all of them, the temporaries are numbered one after another
    from the first counter to the last, without a gap; every body line is an instruction or the line of
    a label with a number between the counters; no label line comes twice; tables and variables are
    named after identifiers; and no two generated names, of whatever kinds, have one text. -/
theorem names_of_relay (start : Names) (run : List (List Piece))
    (h : ∀ pieces ∈ run, ∀ p ∈ pieces, p.node.WellNamed) :
    let streams := (relay start run).1
    let last := (relay start run).2
    (∃ k, last.temps = start.temps + k ∧
      (streams.flatMap fun s => s.temps.map Prod.fst) =
        (List.range' (start.temps + 1) k).map fun i => (GeneratedName.cell (.temp i)).text) ∧
    (∀ line ∈ streams.flatMap Streams.body,
      (∃ op param, Statement.read line = .ok (some (.code op param))) ∨
        ∃ l : Label, line = (GeneratedName.label l).text ∧ start.labels < l.number ∧
          l.number ≤ last.labels) ∧
    (∀ l, (streams.flatMap Streams.body).count (GeneratedName.label l).text ≤ 1) ∧
    (∀ s ∈ streams,
      (∀ x ∈ s.tables.keys, ∃ y : Text, y.isIdentifier = true ∧ x = (GeneratedName.table y).text) ∧
      ∀ x ∈ s.vars.keys, ∃ y : Text, y.isIdentifier = true ∧ x = (GeneratedName.cell (.var y)).text) ∧
    ∀ a b : GeneratedName, a.text = b.text → a = b := by
  obtain ⟨es, hstreams, hsound⟩ := sound_of_relay start h
  intro streams last
  have hbody : streams.flatMap Streams.body = (Emission.concat es).body.map Streams.bodyLine := by
    rw [← body_concat, ← hstreams]
  refine ⟨⟨(Emission.concat es).temps.length, hsound.numbered.1, ?_⟩, ?_, ?_, ?_,
    fun a b => GeneratedName.text_injective⟩
  · show (streams.flatMap fun s => s.temps.map Prod.fst) = _
    rw [← hsound.numbered.2, List.map_map, show streams = es.map Streams.empty.extend from hstreams,
      temps_concat]
    rfl
  · intro line hline
    rw [hbody] at hline
    exact hsound.line_cases hline
  · intro l
    rw [hbody]
    exact hsound.count_line_le l
  · intro s hs
    rw [show streams = es.map Streams.empty.extend from hstreams] at hs
    obtain ⟨e, he, rfl⟩ := List.mem_map.1 hs
    have hdeclared : ∀ d ∈ e.declarations, d.name.isIdentifier = true := fun d hd =>
      hsound.declared d (by rw [declarations_concat]; exact List.mem_flatMap.2 ⟨e, he, hd⟩)
    constructor
    · intro x hx
      rw [Streams.keys_tables_extend] at hx
      obtain ⟨d, hd, rfl⟩ := mem_keys_tables hx
      exact ⟨d.name, hdeclared d hd, rfl⟩
    · intro x hx
      rw [Streams.keys_vars_extend] at hx
      obtain ⟨d, hd, rfl⟩ := mem_varNames hx
      exact ⟨d.name, hdeclared d hd, rfl⟩

/-- A loop whose condition has no code, an expression, and a name that is declared before its value
    fails; then another generator with a conditional. -/
def withFailures : List (List Piece) :=
  [[.statement (.whileLoop (.intLit ['x']) (.block [])),
    .expression (.binary .lt (.intLit ['1']) (.ident ['y'])),
    .program (.program [.assign ['y'] (.intLit ['2']), .wait ['z']])],
   [.statement (.ifElse (.ident ['y']) (.block [.assignAt ['t'] (.intLit ['0']) (.ident ['y'])])
      (some (.block [.tableInit ['t'] ['3'] ['0']])))]]

theorem names_of_withFailures :
    (relay ⟨4, 7⟩ withFailures).2 = ⟨8, 10⟩ ∧
      (∃ k, (relay ⟨4, 7⟩ withFailures).2.temps = 4 + k ∧
        ((relay ⟨4, 7⟩ withFailures).1.flatMap fun s => s.temps.map Prod.fst) =
          (List.range' 5 k).map fun i => (GeneratedName.cell (.temp i)).text) ∧
      ∀ l, ((relay ⟨4, 7⟩ withFailures).1.flatMap Streams.body).count (GeneratedName.label l).text ≤ 1 := by
  have hnames : ∀ pieces ∈ withFailures, ∀ p ∈ pieces, p.node.WellNamed := by decide
  obtain ⟨htemps, -, hlabels, -⟩ := names_of_relay ⟨4, 7⟩ withFailures hnames
  exact ⟨by decide, htemps, hlabels⟩

end Minicore
