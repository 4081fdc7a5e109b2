/-
  LOADING — a compiled program in the machine, before the first step.

  Problem: the simulation starts from a machine that holds the store at the start.  What the cells hold
  there comes from the declarations behind the code, and these from the tree, by way of maps in which a
  name keeps its place and the last content counts.

  1. **Declarations** — those that are emitted are those of the tree, in order
     (`StatementCode.declarations_eq`), so the variables and tables of the program are the assigned
     variables and the declared tables of the tree.

  2. **Sites** — a name of a cell or a table belongs to a declaration behind the code, and the words
     there are what the site holds at the start (`StatementCode.first_contents`).

  3. **Linking** — what links is a linked program (`linked_of_link`); loaded, it holds the store at the
     start (`represents_of_loaded`).
-/
import Minicore.Proofs.Codegen.Readable
import Minicore.Proofs.Meaning.Sequences

namespace Minicore

open Statement (words names AllReadable)

/-! ## Declarations of the tree -/

/-- The declaration that a node asks for. -/
def Node.declaration? : Node → Option Declaration
  | .scalarInit x _ => some (.variable x)
  | .scalarAssign (.ident x) _ => some (.variable x)
  | .tableInit x size default =>
    match word? size, word? default with
    | some n, some v => some (.table x n v)
    | _, _ => none
  | _ => none

/-- The variable that a declaration is of. -/
def Declaration.scalar? : Declaration → Option Text
  | .variable x => some x
  | .table _ _ _ => none

/-- The table that a declaration is of, with the number and the first value of its cells. -/
def Declaration.sized? : Declaration → Option (Text × UInt16 × UInt16)
  | .variable _ => none
  | .table x size default => some (x, size, default)

theorem Node.simple_declaration? : Simple declaration? := by constructor <;> intros <;> rfl

/-- **What is declared** is what the nodes of the tree ask for, in their order. -/
theorem StatementCode.declarations_eq {n : Node} {n₀ n₁ : Names} {e : Emission}
    {ks : List (Nat × UInt16)} (h : StatementCode n n₀ n₁ e ks) :
    e.declarations = n.collect Node.declaration? := by
  have hf := Node.simple_declaration?
  induction h with
  | nil => rw [Node.collect_nil hf]; rfl
  | cons _ _ ihs ihss => rw [Node.collect_block hf, ← ihs, ← ihss]; rfl
  | assign hn _ hc =>
    rcases hn with rfl | rfl
    · rw [Node.collect_scalarInit, hc.collect hf, Emission.declarations_append, hc.declarations]
      rfl
    · rw [Node.collect_scalarAssign hf, hc.collect hf, Emission.declarations_append, hc.declarations]
      rfl
  | tableInit _ hsize hdefault =>
    rw [Node.collect_tableInit, Node.declaration?, hsize, hdefault]
    rfl
  | tableAssign hi hv =>
    rw [Node.collect_tableAssign hf, hi.collect hf, hv.collect hf, Emission.declarations_append,
      Emission.declarations_append, hi.declarations, hv.declarations]
    rfl
  | wait _ => rw [Node.collect_wait]; rfl
  | ifThen hnone hc _ ih =>
    rcases hnone with rfl | rfl
    · rw [Node.collect_ifThen hf, hc.collect hf, ← ih, Emission.declarations_append, hc.declarations]
      exact List.append_nil _
    · rw [Node.collect_ifElse hf, hc.collect hf, Node.collect_nil hf, ← ih,
        Emission.declarations_append, hc.declarations]
      rfl
  | @ifElse _ _ _ _ _ _ _ _ _ a b d _ _ _ hc _ _ ihss ihts =>
    rw [Node.collect_ifElse hf, hc.collect hf, ← ihss, ← ihts, Emission.declarations_append,
      hc.declarations]
    show b.declarations ++ (d.declarations ++ []) = b.declarations ++ d.declarations
    rw [List.append_nil]
  | @whileLoop _ _ _ _ _ _ a b _ _ hc _ ih =>
    rw [Node.collect_whileLoop hf, hc.collect hf, ← ih]
    show a.declarations ++ (b.declarations ++ []) = b.declarations
    rw [hc.declarations, List.append_nil]
    rfl
  | exprStmt hc => rw [Node.collect_exprStmt hf, hc.collect hf, hc.declarations]

/-- Something found in nodes that comes from their declarations. -/
theorem Node.collect_of_declaration {α : Type} {f : Node → Option α} {g : Declaration → Option α}
    (h : ∀ n : Node, f n = n.declaration?.bind g) (n : Node) :
    n.collect f = (n.collect declaration?).filterMap g := by
  rw [collect, collect, List.filterMap_filterMap]
  exact List.filterMap_congr fun m _ => h m

/-- A variable is declared where one is assigned to. -/
theorem Node.assigned?_eq (n : Node) : n.assigned? = n.declaration?.bind Declaration.scalar? := by
  cases n with
  | scalarAssign target value => cases target <;> rfl
  | tableInit x size default =>
    cases hsize : word? size with
    | none => simp only [declaration?, hsize]; rfl
    | some n =>
      cases hdefault : word? default with
      | none => simp only [declaration?, hsize, hdefault]; rfl
      | some v => simp only [declaration?, hsize, hdefault]; rfl
  | _ => rfl

/-- A table is declared where one is initialized. -/
theorem Node.table?_eq (n : Node) : n.table? = n.declaration?.bind Declaration.sized? := by
  cases n with
  | scalarAssign target value => cases target <;> rfl
  | tableInit x size default =>
    cases hsize : word? size with
    | none => simp only [table?, declaration?, hsize]; rfl
    | some n =>
      cases hdefault : word? default with
      | none => simp only [table?, declaration?, hsize, hdefault]; rfl
      | some v => simp only [table?, declaration?, hsize, hdefault]; rfl
  | _ => rfl

/-- The names of the variables of a program are those of the assigned variables. -/
theorem StatementCode.mem_varNames_iff {n : Node} {n₀ n₁ : Names} {e : Emission}
    {ks : List (Nat × UInt16)} (h : StatementCode n n₀ n₁ e ks) (y : Text) :
    y ∈ e.varNames ↔ ∃ x ∈ n.assigned, y = (Cell.var x).name := by
  have hassigned : n.assigned = e.declarations.filterMap Declaration.scalar? := by
    rw [h.declarations_eq]
    exact Node.collect_of_declaration Node.assigned?_eq n
  rw [Emission.varNames, List.mem_eraseDups, hassigned, List.mem_filterMap]
  constructor
  · rintro ⟨d, hd, hy⟩
    rcases d with x | ⟨x, size, default⟩
    · exact ⟨x, List.mem_filterMap.2 ⟨_, hd, rfl⟩, (Option.some.inj hy).symm⟩
    · cases hy
  · rintro ⟨x, hx, rfl⟩
    obtain ⟨d, hd, hsome⟩ := List.mem_filterMap.1 hx
    rcases d with y | ⟨y, size, default⟩
    · obtain rfl := Option.some.inj hsome
      exact ⟨_, hd, rfl⟩
    · cases hsome

/-- The content of a table is its default, as often as its size says, both from its last
    declaration. -/
theorem StatementCode.find?_tables {n : Node} {n₀ n₁ : Names} {e : Emission}
    {ks : List (Nat × UInt16)} (h : StatementCode n n₀ n₁ e ks) (x : Text) :
    OrderedMap.find? e.tables (tableName x) =
      (OrderedMap.find? n.tables x).map fun d => List.replicate d.1.toNat d.2 := by
  have htables : n.collect Node.table? = e.declarations.filterMap Declaration.sized? := by
    rw [h.declarations_eq]
    exact Node.collect_of_declaration Node.table?_eq n
  have hpairs : e.declarations.filterMap Declaration.table? =
      (n.collect Node.table?).map fun d => (tableName d.1, List.replicate d.2.1.toNat d.2.2) := by
    rw [htables, List.map_filterMap]
    refine List.filterMap_congr fun d _ => ?_
    rcases d with y | ⟨y, size, default⟩
    · rfl
    · rfl
  have hname : ∀ d : Text × UInt16 × UInt16, (tableName d.1 == tableName x) = (d.1 == x) := by
    intro d
    by_cases hd : d.1 = x
    · rw [hd, beq_self_eq_true, beq_self_eq_true]
    · rw [beq_eq_false_iff_ne.2 hd, beq_eq_false_iff_ne.2 fun heq => hd (tableName_injective heq)]
  rw [Emission.tables, hpairs, Node.tables, OrderedMap.find?_ofList, OrderedMap.find?_ofList,
    ← List.map_reverse, List.find?_map, Option.map_map, Option.map_map]
  simp only [Function.comp_def, hname]

/-! ## Declared sites -/

/-- The program with these contributions declares the site with these words. -/
inductive Declares (e : Emission) : Site → List UInt16 → Prop
  | one : Declares e (.cell .one) [1]
  | zero : Declares e (.cell .zero) [0]
  | temp {k : Nat} {v : UInt16} : (k, v) ∈ e.temps → Declares e (.cell (.temp k)) [v]
  | var {x : Text} : (Cell.var x).name ∈ e.varNames → Declares e (.cell (.var x)) [0]
  | table {x : Text} {i : UInt16} {values : List UInt16} :
      OrderedMap.find? e.tables (tableName x) = some values → Declares e (.entry x i) values

/-- The stem of a site tells that it is no branch target. -/
theorem Site.stem_name (p : Site) :
    p.name.stem ∈ ["temp".toList, "var".toList, "const".toList, "tab".toList] := by
  rcases p with c | ⟨x, i⟩
  · show c.name.stem ∈ _
    cases c with
    | temp n => rw [Cell.stem_temp]; decide
    | var x => rw [Cell.stem_var]; decide
    | zero => decide
    | one => decide
  · show (tableName x).stem ∈ _
    rw [stem_tableName]
    decide

/-- A site that has the name of a cell is that cell. -/
theorem Site.eq_cell {p : Site} {c : Cell} (h : c.name = p.name) : p = .cell c := by
  rcases p with d | ⟨x, i⟩
  · rw [Cell.name_injective h]
  · exact absurd h.symm (tableName_ne_cell x c)

/-- **Names of sites** are defined by declarations, and these are the ones that the site asks for. -/
theorem StatementCode.declares_of_mem {n : Node} {n₀ n₁ : Names} {e : Emission}
    {ks : List (Nat × UInt16)} (h : StatementCode n n₀ n₁ e ks) {st : Statement} {p : Site}
    (hmem : st ∈ e.program) (hname : st.name? = some p.name) :
    ∃ values, st = .data p.name values ∧ Declares e p values := by
  have hcells : ∀ {c : Cell} {v : UInt16}, st = .data c.name [v] → (Declares e (.cell c) [v]) →
      ∃ values, st = .data p.name values ∧ Declares e p values := by
    rintro c v rfl hd
    obtain rfl := Site.eq_cell (Option.some.inj hname)
    exact ⟨[v], rfl, hd⟩
  simp only [Emission.program, Emission.cells, List.mem_append, List.mem_cons, List.not_mem_nil,
    or_false, List.mem_map] at hmem
  rcases hmem with hbody | (rfl | rfl) | (((rfl | rfl) | ⟨d, hd, rfl⟩) | ⟨d, hd, rfl⟩) | ⟨x, hx, rfl⟩
  · -- the names of the body are those of labels
    obtain ⟨l, hl⟩ := h.labelled.exists_label (List.mem_filterMap.2 ⟨st, hbody, hname⟩)
    have hstem := p.stem_name
    rw [hl, Label.stem_name] at hstem
    exact absurd hstem (by cases l.role <;> decide)
  · have hstem := p.stem_name
    rw [← Option.some.inj hname] at hstem
    exact absurd hstem (by decide)
  · cases hname
  · exact hcells rfl .one
  · exact hcells rfl .zero
  · exact hcells rfl (.temp hd)
  · obtain ⟨name, values⟩ := d
    obtain ⟨y, -, hy⟩ := mem_keys_tables (List.mem_map_of_mem hd)
    have hsite : tableName y.name = p.name := hy.symm.trans (Option.some.inj hname)
    rcases p with c | ⟨x, i⟩
    · exact absurd hsite (Site.tableName_ne_cell y.name c)
    · obtain rfl : name = tableName x := Option.some.inj hname
      have hkeys : e.tables.keys.Nodup := by
        rw [Emission.tables, OrderedMap.keys_ofList]
        exact OrderedMap.nodup_eraseDups _
      exact ⟨values, rfl, .table (OrderedMap.find?_of_mem_entries hkeys hd)⟩
  · obtain ⟨d, -, rfl⟩ := mem_varNames hx
    exact hcells rfl (.var hx)

/-- What a program declares is one of its statements. -/
theorem Declares.mem {e : Emission} {p : Site} {values : List UInt16} (h : Declares e p values) :
    .data p.name values ∈ e.program := by
  have hcells : ∀ st ∈ e.cells, st ∈ e.program := fun st hst =>
    List.mem_append_right _ (List.mem_append_right _ hst)
  apply hcells
  simp only [Emission.cells, List.mem_append, List.mem_cons, List.not_mem_nil, or_false, List.mem_map]
  cases h with
  | one => exact .inl (.inl (.inl (.inl rfl)))
  | zero => exact .inl (.inl (.inl (.inr rfl)))
  | temp hk => exact .inl (.inl (.inr ⟨_, hk, rfl⟩))
  | var hx => exact .inr ⟨_, hx, rfl⟩
  | table hfind => exact .inl (.inr ⟨_, OrderedMap.mem_entries_of_find? hfind, rfl⟩)

/-! ## The machine at the start -/

/-- The temporaries at the start. -/
def Emission.firstTemps (e : Emission) (k : Nat) : UInt16 :=
  ((e.temps.find? fun d => d.1 == k).map Prod.snd).getD 0

/-- With every temporary once, it starts with its own value. -/
theorem Emission.firstTemps_of_mem {e : Emission} (hn : (e.temps.map Prod.fst).Nodup) {k : Nat}
    {v : UInt16} (h : (k, v) ∈ e.temps) : e.firstTemps k = v := by
  unfold firstTemps
  revert hn h
  generalize e.temps = ds
  intro hn h
  -- every number comes once: the pair that is found is the one that is there
  induction ds with
  | nil => cases h
  | cons d ds ih =>
    obtain ⟨j, w⟩ := d
    rw [List.map_cons, List.nodup_cons] at hn
    rcases List.mem_cons.1 h with heq | h
    · obtain ⟨rfl, rfl⟩ := Prod.mk.inj heq
      rw [List.find?_cons_of_pos (by simp)]
      rfl
    · have hne : j ≠ k := by
        intro hjk
        rw [hjk] at hn
        exact hn.1 (List.mem_map.2 ⟨_, h, rfl⟩)
      rw [List.find?_cons_of_neg (by simpa using hne)]
      exact ih hn.2 h

/-- **First contents**: the words that a site is declared with are what it holds at the start. -/
theorem StatementCode.first_contents {n : Node} {n₀ n₁ : Names} {e : Emission}
    {ks : List (Nat × UInt16)} (h : StatementCode n n₀ n₁ e ks) {p : Site} {values : List UInt16}
    (hp : p.isDeclared = true) (hd : Declares e p values) (display : UInt16 → UInt16) {v : UInt16}
    (hv : values[p.offset]? = some v) : v = contents (n.initial display) e.firstTemps p := by
  cases hd with
  | one => exact (Option.some.inj hv).symm
  | zero => exact (Option.some.inj hv).symm
  | @temp k w hk =>
    show v = e.firstTemps k
    rw [Emission.firstTemps_of_mem h.numbered.nodup hk]
    exact (Option.some.inj hv).symm
  | var _ => exact (Option.some.inj hv).symm
  | @table x i values hfind =>
    have hx : x ≠ screenName := of_decide_eq_true hp
    rw [h.find?_tables, Option.map_eq_some_iff] at hfind
    obtain ⟨⟨size, default⟩, hsize, rfl⟩ := hfind
    have hvalue : v = default := by
      have hmem := List.mem_of_getElem? hv
      exact (List.mem_replicate.1 hmem).2
    show v = if x = screenName then display i
      else ((OrderedMap.find? n.tables x).map Prod.snd).getD 0
    rw [if_neg hx, hsize, hvalue]
    rfl

/-! ## Linked and loaded -/

/-- What links compiles to a text that assembles. -/
theorem assemble_of_link {n : Node} {asm : Assembly} (h : link n = .ok asm) :
    ∃ t, compile n = .ok t ∧ assemble t = .ok asm := by
  rw [link] at h
  cases hc : compile n with
  | error fault => rw [hc] at h; cases h
  | ok t =>
    rw [hc] at h
    cases ha : assemble t with
    | error fault => simp only [ha] at h; cases h
    | ok a =>
      simp only [ha] at h
      rw [← Except.ok.inj h]
      exact ⟨t, rfl, ha⟩

/-- In a tree with identifiers for its names the assigned tables have identifiers. -/
theorem Node.isIdentifier_of_mem_tableTargets {n : Node} (hn : n.WellNamed) {x : Text}
    (hx : x ∈ n.tableTargets) : x.isIdentifier = true := by
  obtain ⟨k, hk, hsome⟩ := List.mem_filterMap.1 hx
  refine hn k hk x ?_
  cases k with
  | tableAssign target index value =>
    cases target with
    | ident y => exact hsome
    | _ => cases hsome
  | _ => cases hsome

theorem Node.tables_program (ns : List Node) : (program ns).tables = (block ns).tables := by
  rw [tables, tables, collect_program rfl rfl]

theorem Node.assigned_program (ns : List Node) : (program ns).assigned = (block ns).assigned := by
  rw [assigned, assigned, collect_program rfl rfl]

/-- **What compiles** with identifiers for its names has readable code throughout. -/
theorem readable_of_compile {n : Node} {t : Text} (h : compile n = .ok t) (hn : n.WellNamed) :
    ∃ ns last ks, n = .program ns ∧ StatementCode (.block ns) Names.fresh last n.emission ks ∧
      AllReadable n.emission.body ∧ t = Text.unlines (Streams.empty.extend n.emission).lines := by
  obtain ⟨ns, last, ks, rfl, hcode, rfl⟩ := compile_derived h
  refine ⟨ns, last, ks, rfl, hcode, hcode.understood.readable fun x hx => ?_, rfl⟩
  rw [← Node.tableTargets_program] at hx
  exact Node.isIdentifier_of_mem_tableTargets hn hx

/-- **What links** with identifiers for its names is a linked program. -/
theorem linked_of_link {n : Node} {asm : Assembly} (h : link n = .ok asm) (hn : n.WellNamed) :
    ∃ ns last ks, n = .program ns ∧ StatementCode (.block ns) Names.fresh last n.emission ks ∧
      Linked asm n.emission.program := by
  obtain ⟨t, hc, ha⟩ := assemble_of_link h
  obtain ⟨ns, last, ks, rfl, hcode, hbody, rfl⟩ := readable_of_compile hc hn
  refine ⟨ns, last, ks, rfl, hcode, ?_⟩
  -- every line is readable, so the text carries the program
  have hstatements := hcode.statements_program hbody
  have hcarries := carries_of_assemble ha (by rw [hstatements]; exact hcode.nodup_names)
  rw [hstatements] at hcarries
  refine ⟨hcarries, fun st hst c hname => ?_⟩
  obtain ⟨values, rfl, hdeclares⟩ := hcode.declares_of_mem (p := .cell c) hst hname
  cases hdeclares <;> exact ⟨_, rfl⟩

/-- **What is loaded** holds the store at the start. -/
theorem represents_of_loaded {n : Node} {n₀ n₁ : Names} {e : Emission} {ks : List (Nat × UInt16)}
    {asm : Assembly} {m : Machine} (hcode : StatementCode n n₀ n₁ e ks) (h : Linked asm e.program)
    (hm : m.Loaded asm.records) :
    Represents e.program (n.initial fun i => m.memory (screenBase + i)) e.firstTemps m.memory := by
  intro p j hp
  cases hp with
  | @declared before after p values hd hss hoffset =>
    have hmem : Statement.data p.name values ∈ e.program := by
      rw [hss]
      simp
    -- the declaration behind the address is the one that the site asks for
    obtain ⟨values', heq, hdeclares⟩ := hcode.declares_of_mem hmem rfl
    injection heq with _ hvalues
    subst hvalues
    have hv : values[p.offset]? = some values[p.offset] := List.getElem?_eq_getElem hoffset
    obtain ⟨r, hr, haddress, hword⟩ := h.data hss p.offset _ hv
    rw [← haddress, hm.data r hr _ hword]
    exact hcode.first_contents hd hdeclares _ hv
  | @display i _ =>
    rw [UInt16.ofNat_add, UInt16.ofNat_toNat, UInt16.ofNat_toNat]
    show m.memory (screenBase + i) = if screenName = screenName then m.memory (screenBase + i)
      else ((OrderedMap.find? n.tables screenName).map Prod.snd).getD 0
    rw [if_pos rfl]

end Minicore
