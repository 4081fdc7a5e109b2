/-
  LAYOUT OF LINKED PROGRAMS — where everything stands, and which word it is.

  Problem: a debugger, a loader or a person with a listing wants to know where the variables of a program
  are.  The addresses come out of two passes over a generated text; they should follow from the sizes of
  the parts of the program alone.

  1. **Program** — the generated streams: a body of instructions and labels, the contents of the
     temporaries, and the tables and variables of the tree.

  2. **Specification** — `ProgramLayout`: the map has the names of the body, of the halt loop, of the
     constants, the temporaries, the tables and the variables, in this order and no others, each at
     the words before it; and the records are the instructions of the body with their operands resolved,
     the branch to itself, and the data words of the declarations.

  3. **Stretches** — a program is stretches of statements one behind another, and an address is read
     off a decomposition of ONE stretch (`Layout.has_of_stretch`).
-/
import Minicore.Proofs.Assembly.Definite
import Minicore.Proofs.Codegen.Footprint

namespace Minicore

open Statement (words names)

/-! ## Instructions of a body -/

namespace Statement

/-- The instruction that a statement is. -/
def instruction? : Statement → Option (Opcode × Option Param)
  | .code op param => some (op, param)
  | _ => none

/-- The instructions among these statements, in order. -/
def instructions (ss : List Statement) : List (Opcode × Option Param) := ss.filterMap instruction?

/-- Instructions and labels have a word for each instruction. -/
theorem length_instructions {ss : List Statement} (h : ss.all isCode = true) :
    (instructions ss).length = words ss := by
  induction ss with
  | nil => rfl
  | cons s ss ih =>
    rw [List.all_cons, Bool.and_eq_true] at h
    rw [words_cons, ← ih h.2]
    cases s with
    | code op param =>
      show (instructions ss).length + 1 = 1 + (instructions ss).length
      exact Nat.add_comm _ _
    | label name => exact (Nat.zero_add _).symm
    | data name values => cases h.1

/-- An instruction among the statements stands behind the instructions before it. -/
theorem exists_of_instructions {ss : List Statement} {i : Nat} {op : Opcode} {param : Option Param}
    (h : (instructions ss)[i]? = some (op, param)) :
    ∃ before after, ss = before ++ .code op param :: after ∧ (instructions before).length = i := by
  obtain ⟨hi, hget⟩ := List.getElem?_eq_some_iff.1 h
  have hsplit : instructions ss =
      (instructions ss).take i ++ (op, param) :: (instructions ss).drop (i + 1) := by
    rw [← hget, ← List.drop_eq_getElem_cons hi, List.take_append_drop]
  obtain ⟨before, rest, rfl, hbefore, hrest⟩ := List.filterMap_eq_append_iff.1 hsplit
  obtain ⟨skipped, s, after, rfl, hskip, hs, -⟩ := List.filterMap_eq_cons_iff.1 hrest
  -- labels may stand between the instructions
  have hnone : instructions skipped = [] := List.filterMap_eq_nil_iff.2 hskip
  have hcode : s = .code op param := by
    cases s <;> cases hs
    rfl
  refine ⟨before ++ skipped, after, by rw [hcode, List.append_assoc], ?_⟩
  show (List.filterMap instruction? (before ++ skipped)).length = i
  rw [List.filterMap_append, hbefore, List.length_append, List.length_take, Nat.min_eq_left (Nat.le_of_lt hi)]
  show i + (instructions skipped).length = i
  rw [hnone]
  rfl

end Statement

/-! ## Generated bodies -/

section Derivations

variable {n : Node} {n₀ n₁ : Names} {c : Cell} {e : Emission} {ks : List (Nat × UInt16)}

theorem all_isCode_operatorCode (op : Operator) (k : Nat) :
    (operatorCode op k).all Statement.isCode = true := by
  cases op <;> rfl

theorem ExpressionCode.all_isCode (h : ExpressionCode n n₀ c n₁ e ks) :
    e.body.all Statement.isCode = true := by
  induction h with
  | ident _ => rfl
  | intLit _ => rfl
  | @binary op left right n₀ n₁ n₂ l r a b ks ls _ _ ihl ihr =>
    have hload : ∀ d : Cell, (Code.load0 d).all Statement.isCode = true := fun _ => rfl
    have hload3 : ∀ d : Cell, (Code.load3 d).all Statement.isCode = true := fun _ => rfl
    have hstore : ∀ d : Cell, (Code.store d).all Statement.isCode = true := fun _ => rfl
    simp only [Emission.body_append, List.all_append, ihl, ihr, hload, hload3, hstore,
      all_isCode_operatorCode, Bool.and_self]

/-- **No data** is declared inside a body. -/
theorem StatementCode.all_isCode (h : StatementCode n n₀ n₁ e ks) :
    e.body.all Statement.isCode = true := by
  have htest : ∀ (d : Cell) (op : Opcode) (l : Label),
      (Code.test d ++ [Code.branch op l]).all Statement.isCode = true := fun _ _ _ => rfl
  have hcopy : ∀ d f : Cell, (Code.copy d f).all Statement.isCode = true := fun _ _ => rfl
  have htable : ∀ (x : Text) (i v : Cell), (tableStore x i v).all Statement.isCode = true :=
    fun _ _ _ => rfl
  have hmark : ∀ l : Label, [Code.mark l].all Statement.isCode = true := fun _ => rfl
  have hjump : ∀ (op : Opcode) (l m : Label),
      [Code.branch op l, Code.mark m].all Statement.isCode = true := fun _ _ _ => rfl
  induction h with
  | nil => rfl
  | cons _ _ ihs ihss => simp only [Emission.body_append, List.all_append, ihs, ihss, Bool.and_self]
  | assign _ _ hc => simp only [Emission.body_append, List.all_append, hc.all_isCode, hcopy, Bool.and_self]
  | tableInit _ _ _ => rfl
  | tableAssign hi hv =>
    simp only [Emission.body_append, body_code, List.all_append, hi.all_isCode, hv.all_isCode, htable,
      Bool.and_self]
  | wait _ => rfl
  | ifThen _ hc _ ih =>
    simp only [Emission.body_append, body_code, List.all_append, hc.all_isCode, ih, htest, hjump,
      Bool.and_self]
  | ifElse hc _ _ ihss ihts =>
    simp only [Emission.body_append, body_code, List.all_append, hc.all_isCode, ihss, ihts, htest, hjump,
      hmark, Bool.and_self]
  | whileLoop hc _ ih =>
    simp only [Emission.body_append, body_code, List.all_append, hc.all_isCode, ih, htest, hjump, hmark,
      Bool.and_self]
  | exprStmt hc => exact hc.all_isCode

/-- The temporaries are numbered from one on, in the order of their contents. -/
theorem StatementCode.temps_eq (h : StatementCode n Names.fresh n₁ e ks) :
    e.temps = ((e.temps.map Prod.snd).zipIdx 1).map Prod.swap := by
  have hnumbers : e.temps.map Prod.fst = List.range' 1 e.temps.length := h.numbered.2
  rw [List.zipIdx_eq_zip_range', List.length_map, ← hnumbers, List.zip_map', List.map_map]
  exact (List.map_id _).symm

end Derivations

/-- The streams of what compiles. -/
theorem ofProgram_of_compile {n : Node} {t : Text} (h : compile n = .ok t) :
    Streams.ofProgram n = .ok (Streams.empty.extend n.emission) := by
  have hstreams : Streams.ofProgram n =
      (program n Names.fresh).result.map fun _ => Streams.empty.extend n.emission := rfl
  rw [compile, hstreams] at h
  rw [hstreams]
  cases hresult : (program n Names.fresh).result with
  | error fault => rw [hresult] at h; cases h
  | ok u => rfl

/-! ## The statements of a program -/

/-- The declaration of a temporary, from its content and number. -/
def tempCell (d : UInt16 × Nat) : Statement := .data (Cell.temp d.2).name [d.1]

/-- The declaration of a table, from its name, size and default. -/
def tableBlock (d : Text × UInt16 × UInt16) : Statement :=
  .data (tableName d.1) (List.replicate d.2.1.toNat d.2.2)

/-- The declaration of a variable. -/
def varCell (x : Text) : Statement := .data (Cell.var x).name [0]

/-- The statements of the program of this tree, with that body and those contents of the temporaries. -/
def Node.statements (n : Node) (body : List Statement) (contents : List UInt16) : List Statement :=
  body ++ ([.label haltName, .code .b (some (.symbol haltName)), .data Cell.one.name [1],
    .data Cell.zero.name [0]] ++ ((contents.zipIdx 1).map tempCell ++
      (n.tables.entries.map tableBlock ++ n.scalars.map varCell)))

/-- **The program** that is generated has the tables and variables of its tree. -/
theorem StatementCode.program_eq {ns : List Node} {last : Names} {e : Emission}
    {ks : List (Nat × UInt16)} (h : StatementCode (.block ns) Names.fresh last e ks) :
    e.program = (Node.program ns).statements e.body (e.temps.map Prod.snd) := by
  have htemps : e.temps.map (fun d => Statement.data (Cell.temp d.1).name [d.2]) =
      ((e.temps.map Prod.snd).zipIdx 1).map tempCell := by
    conv_lhs => rw [h.temps_eq, List.map_map]
    rfl
  have htables : e.tables.entries.map (fun d => Statement.data d.1 d.2) =
      (Node.block ns).tables.entries.map tableBlock := by
    rw [h.tables_eq, List.map_map]
    rfl
  have hvars : e.varNames.map (fun x => Statement.data x [0]) = (Node.block ns).scalars.map varCell := by
    rw [h.varNames_eq, List.map_map]
    rfl
  rw [Emission.program, Emission.cells, htemps, htables, hvars, Node.statements, Node.tables_program,
    Node.scalars, Node.scalars, Node.assigned_program]
  simp only [List.append_assoc]
  rfl

theorem words_tempCells (ds : List (UInt16 × Nat)) : words (ds.map tempCell) = ds.length :=
  (words_data (fun d : UInt16 × Nat => (Cell.temp d.2).name) (fun d => [d.1]) ds).trans (by simp)

theorem words_tableBlocks (ds : List (Text × UInt16 × UInt16)) :
    words (ds.map tableBlock) = (ds.map fun d => d.2.1.toNat).sum := by
  rw [words, List.map_map]
  simp only [Function.comp_def, tableBlock, Statement.width, List.length_replicate]

theorem words_varCells (xs : List Text) : words (xs.map varCell) = xs.length :=
  (words_data (fun x : Text => (Cell.var x).name) (fun _ => [0]) xs).trans (by simp)

/-- The words in front of the temporaries. -/
theorem words_front {body : List Statement} (hbody : body.all Statement.isCode = true) :
    words (body ++ [.label haltName, .code .b (some (.symbol haltName)), .data Cell.one.name [1],
      .data Cell.zero.name [0]]) = (Statement.instructions body).length + 3 := by
  rw [Statement.words_append, Statement.length_instructions hbody]
  rfl

/-- The names of the program, kind by kind. -/
theorem Node.names_statements (n : Node) (body : List Statement) (contents : List UInt16) :
    names (n.statements body contents) =
      names body ++ ([haltName, Cell.one.name, Cell.zero.name] ++
        ((List.range' 1 contents.length).map (fun k => (Cell.temp k).name) ++
          (n.tables.keys.map tableName ++ n.scalars.map fun x => (Cell.var x).name))) := by
  have htemps : names ((contents.zipIdx 1).map tempCell) =
      (List.range' 1 contents.length).map fun k => (Cell.temp k).name := by
    rw [← List.zipIdx_map_snd, List.map_map]
    exact names_data (fun d : UInt16 × Nat => (Cell.temp d.2).name) (fun d => [d.1]) _
  have htables : names (n.tables.entries.map tableBlock) = n.tables.keys.map tableName := by
    rw [OrderedMap.keys, List.map_map]
    exact names_data (fun d : Text × UInt16 × UInt16 => tableName d.1)
      (fun d => List.replicate d.2.1.toNat d.2.2) _
  have hvars : names (n.scalars.map varCell) = n.scalars.map fun x => (Cell.var x).name :=
    names_data (fun x : Text => (Cell.var x).name) (fun _ => [0]) _
  rw [Node.statements]
  simp only [Statement.names_append, htemps, htables, hvars]
  rfl

/-! ## Stretches -/

namespace Layout

section Assembled

variable {t : Text} {asm : Assembly} (h : assemble t = .ok asm) (hn : (names t.statements).Nodup)
include h hn

/-- **A statement of a stretch** stands behind what is in front of the stretch and the statements before
    it there. -/
theorem has_of_stretch {α : Type} {f : α → Statement} {front behind : List Statement}
    {before after : List α} {a : α} {x : Text}
    (hss : t.statements = front ++ ((before ++ a :: after).map f ++ behind))
    (hx : (f a).name? = some x) :
    asm.layout.map.Has x (definition (f a)) (words front + words (before.map f)) := by
  have hsplit : t.statements = (front ++ before.map f) ++ f a :: (after.map f ++ behind) := by
    rw [hss, List.map_append, List.map_cons]
    simp only [List.append_assoc, List.cons_append]
  rw [← Statement.words_append]
  exact has_of_statement h hn hsplit hx

end Assembled

end Layout

/-! ## The layout of a program -/

/-- **The layout of a program**, with this tree, these statements for its body, and these contents for
    its temporaries.  `Has x kind a` says that the map has the name `x`, of that kind, at the word `a`. -/
structure ProgramLayout (n : Node) (asm : Assembly) (body : List Statement)
    (contents : List UInt16) : Prop where
  /-- Every name is defined by one line only, and the map has no other names. -/
  once : asm.layout.lines.filterMap SourceLine.name? = asm.layout.map.keys
  nodup : asm.layout.map.keys.Nodup
  /-- The names are the labels of the body, the halt label, and those of the cells and tables. -/
  keys : asm.layout.map.keys = names body ++ ([haltName, Cell.one.name, Cell.zero.name] ++
    ((List.range' 1 contents.length).map (fun k => (Cell.temp k).name) ++
      (n.tables.keys.map tableName ++ n.scalars.map fun x => (Cell.var x).name)))
  /-- A label stands at the instructions before it. -/
  label : ∀ {before after : List Statement} {x : Text}, body = before ++ .label x :: after →
    asm.layout.map.Has x .label (Statement.instructions before).length
  halt : asm.layout.map.Has haltName .label (Statement.instructions body).length
  one : asm.layout.map.Has Cell.one.name (.data 1) ((Statement.instructions body).length + 1)
  zero : asm.layout.map.Has Cell.zero.name (.data 1) ((Statement.instructions body).length + 2)
  /-- The temporaries follow the constants, counted from one. -/
  temp : ∀ k, 1 ≤ k → k ≤ contents.length →
    asm.layout.map.Has (Cell.temp k).name (.data 1) ((Statement.instructions body).length + 2 + k)
  /-- The tables follow the temporaries, each with its cells behind those of the tables before it. -/
  table : ∀ {before after : List (Text × UInt16 × UInt16)} {x : Text} {size default : UInt16},
    n.tables.entries = before ++ (x, size, default) :: after →
      asm.layout.map.Has (tableName x) (.data size.toNat) ((Statement.instructions body).length + 3 +
        contents.length + (before.map fun d => d.2.1.toNat).sum)
  /-- The variables follow the tables, one cell each. -/
  var : ∀ {before after : List Text} {x : Text}, n.scalars = before ++ x :: after →
    asm.layout.map.Has (Cell.var x).name (.data 1) ((Statement.instructions body).length + 3 +
      contents.length + n.tableCells + before.length)
  /-- One record for each address, from zero on. -/
  addresses : asm.records.map (fun r => r.address.toNat) = List.range asm.records.length
  /-- The first records are the instructions of the body, their operands resolved in this map. -/
  code : ∀ {a : Nat} {op : Opcode} {param : Option Param},
    (Statement.instructions body)[a]? = some (op, param) →
      ∃ r v, asm.records[a]? = some r ∧ r.address.toNat = a ∧ r.word = .instruction op v ∧
        Layout.Resolves asm.layout.map param v
  /-- The words behind the body: the branch to itself, the constants, the temporaries, the cells of
      the tables and those of the variables. -/
  data : (asm.records.map Record.word).drop (Statement.instructions body).length =
    [.instruction .b (UInt16.ofNat (Statement.instructions body).length), .data 1, .data 0] ++
      (contents.map Word.data ++
        (n.tables.entries.flatMap (fun d => List.replicate d.2.1.toNat (.data d.2.2)) ++
          n.scalars.map fun _ => .data 0))

section Assembled

variable {n : Node} {t : Text} {asm : Assembly} {body : List Statement} {contents : List UInt16}
  (h : assemble t = .ok asm) (hn : (names t.statements).Nodup)
  (hss : t.statements = n.statements body contents) (hbody : body.all Statement.isCode = true)
include h hn hss hbody

theorem has_halt : asm.layout.map.Has haltName .label (Statement.instructions body).length := by
  rw [Statement.length_instructions hbody]
  exact Layout.has_of_statement h hn (s := .label haltName) (hss.trans rfl) rfl

/-- The branch to itself, resolved. -/
theorem wordsIn_halt : (Statement.code .b (some (.symbol haltName))).wordsIn asm.layout.map =
    [.instruction .b (UInt16.ofNat (Statement.instructions body).length)] := by
  obtain ⟨e, he, -, haddress⟩ := has_halt h hn hss hbody
  have haddress? : asm.layout.map.address? haltName =
      some (UInt16.ofNat (Statement.instructions body).length) := by
    rw [AddressMap.address?, he, ← haddress, UInt16.ofNat_toNat]
    rfl
  simp only [Statement.wordsIn, AddressMap.resolve, haddress?]

/-- The words behind the body. -/
theorem words_behind : (asm.records.map Record.word).drop (Statement.instructions body).length =
    [.instruction .b (UInt16.ofNat (Statement.instructions body).length), .data 1, .data 0] ++
      (contents.map Word.data ++
        (n.tables.entries.flatMap (fun d => List.replicate d.2.1.toNat (.data d.2.2)) ++
          n.scalars.map fun _ => .data 0)) := by
  have hfront := @Layout.length_wordsIn t asm h body fun s hs => by
    rw [hss]
    exact List.mem_append_left _ hs
  have htemps : ((contents.zipIdx 1).map tempCell).flatMap (·.wordsIn asm.layout.map) =
      contents.map Word.data := by
    conv_rhs => rw [← List.zipIdx_map_fst 1 contents, List.map_map, List.map_eq_flatMap]
    rw [List.flatMap_map]
    rfl
  have htables : (n.tables.entries.map tableBlock).flatMap (·.wordsIn asm.layout.map) =
      n.tables.entries.flatMap fun d => List.replicate d.2.1.toNat (.data d.2.2) := by
    rw [List.flatMap_map]
    exact List.flatMap_congr fun d _ => List.map_replicate
  have hvars : (n.scalars.map varCell).flatMap (·.wordsIn asm.layout.map) =
      n.scalars.map fun _ => .data 0 := by
    rw [List.flatMap_map, List.map_eq_flatMap]
    rfl
  rw [(Layout.words_of_assemble h).1, hss, Node.statements, List.flatMap_append,
    List.drop_left' (hfront.trans (Statement.length_instructions hbody).symm)]
  simp only [List.flatMap_append, htemps, htables, hvars]
  simp only [List.flatMap_cons, List.flatMap_nil, wordsIn_halt h hn hss hbody]
  rfl

/-- **The layout** of what is assembled from the statements of a program. -/
theorem layout_of_statements : ProgramLayout n asm body contents where
  once := by rw [Layout.names_of_assemble h, Layout.keys_of_definite h hn]
  nodup := by rwa [Layout.keys_of_definite h hn]
  keys := by rw [Layout.keys_of_definite h hn, hss, Node.names_statements]
  label := by
    rintro before after x rfl
    rw [List.all_append, Bool.and_eq_true] at hbody
    rw [Statement.length_instructions hbody.1]
    exact Layout.has_of_statement h hn (s := .label x) (hss.trans (List.append_assoc _ _ _)) rfl
  halt := has_halt h hn hss hbody
  one := by
    have hsplit : t.statements = (body ++ [.label haltName, .code .b (some (.symbol haltName))]) ++
        .data Cell.one.name [1] :: (.data Cell.zero.name [0] :: ((contents.zipIdx 1).map tempCell ++
          (n.tables.entries.map tableBlock ++ n.scalars.map varCell))) := by
      rw [hss, Node.statements, List.append_assoc]
      rfl
    have hhas := Layout.has_of_statement h hn hsplit rfl
    rwa [Statement.words_append, ← Statement.length_instructions hbody] at hhas
  zero := by
    have hsplit : t.statements =
        (body ++ [.label haltName, .code .b (some (.symbol haltName)), .data Cell.one.name [1]]) ++
          .data Cell.zero.name [0] :: ((contents.zipIdx 1).map tempCell ++
            (n.tables.entries.map tableBlock ++ n.scalars.map varCell)) := by
      rw [hss, Node.statements, List.append_assoc]
      rfl
    have hhas := Layout.has_of_statement h hn hsplit rfl
    rwa [Statement.words_append, ← Statement.length_instructions hbody] at hhas
  temp := by
    intro k hk hle
    have hlt : k - 1 < (contents.zipIdx 1).length := by
      rw [List.length_zipIdx]
      omega
    have hget : (contents.zipIdx 1)[k - 1] = (contents[k - 1], k) := by
      rw [List.getElem_zipIdx, Nat.add_sub_cancel' hk]
    have hsplit : contents.zipIdx 1 = (contents.zipIdx 1).take (k - 1) ++
        (contents[k - 1], k) :: (contents.zipIdx 1).drop (k - 1 + 1) := by
      rw [← hget, ← List.drop_eq_getElem_cons hlt, List.take_append_drop]
    have hfront := hss
    rw [Node.statements, ← List.append_assoc, hsplit] at hfront
    have hhas := Layout.has_of_stretch h hn hfront rfl
    rw [words_front hbody, words_tempCells, List.length_take, Nat.min_eq_left (Nat.le_of_lt hlt)] at hhas
    rwa [show (Statement.instructions body).length + 2 + k =
      (Statement.instructions body).length + 3 + (k - 1) by omega]
  table := by
    intro before after x size default hentries
    have hfront := hss
    rw [Node.statements, ← List.append_assoc, ← List.append_assoc, hentries] at hfront
    have hhas := Layout.has_of_stretch h hn hfront rfl
    rwa [Statement.words_append, words_front hbody, words_tempCells, List.length_zipIdx,
      words_tableBlocks, tableBlock, Layout.definition, List.length_replicate] at hhas
  var := by
    intro before after x hscalars
    have hfront := hss
    rw [Node.statements, ← List.append_assoc, ← List.append_assoc, ← List.append_assoc, hscalars,
      ← List.append_nil (List.map varCell _), ← List.append_assoc, List.append_assoc] at hfront
    have hhas := Layout.has_of_stretch h hn hfront rfl
    rwa [Statement.words_append, Statement.words_append, words_front hbody, words_tempCells,
      List.length_zipIdx, words_tableBlocks, words_varCells] at hhas
  addresses := by
    have haddresses := Layout.addresses_of_assemble h
    have hlength := congrArg List.length haddresses
    rw [List.length_map, List.length_range] at hlength
    rw [haddresses, hlength]
  code := by
    intro a op param ha
    obtain ⟨before, after, rfl, rfl⟩ := Statement.exists_of_instructions ha
    rw [List.all_append, Bool.and_eq_true] at hbody
    rw [Statement.length_instructions hbody.1]
    exact Layout.record_of_instruction h (hss.trans (List.append_assoc _ _ _))
  data := words_behind h hn hss hbody

end Assembled

/-! ## Linked programs -/

/-- **Layout of a linked program.**  Let a program link, all its names being identifiers.  The lines of
    its generated body read as instructions and labels, as many instructions as the tree costs; its
    temporaries are numbered from one on, as many as the tree takes; and what is linked is laid out as
    this body, the contents of these temporaries, and the tables and variables of the tree say. -/
theorem layout_of_link {n : Node} {asm : Assembly} (hn : n.WellNamed) (h : link n = .ok asm) :
    ∃ s body contents, Streams.ofProgram n = .ok s ∧
      s.body.map Statement.read = body.map (fun st => .ok (some st)) ∧
      body.all Statement.isCode = true ∧ (Statement.instructions body).length = n.cost ∧
      s.temps = (contents.zipIdx 1).map (fun d => ((Cell.temp d.2).name, Streams.cellContent d.1)) ∧
      contents.length = n.temporaries ∧ ProgramLayout n asm body contents := by
  obtain ⟨t, hc, ha⟩ := assemble_of_link h
  have hstreams := ofProgram_of_compile hc
  obtain ⟨ns, last, ks, rfl, hcode, hbody, rfl⟩ := readable_of_compile hc hn
  have hstatements := hcode.statements_program hbody
  have hnames : (names (Text.unlines
      (Streams.empty.extend (Node.program ns).emission).lines).statements).Nodup := by
    rw [hstatements]
    exact hcode.nodup_names
  refine ⟨_, _, _, hstreams, ?_, hcode.all_isCode, ?_, ?_, ?_,
    layout_of_statements ha hnames (hstatements.trans hcode.program_eq) hcode.all_isCode⟩
  · rw [Streams.body_extend, List.map_map]
    exact List.map_congr_left fun st hst => (Statement.read_bodyLine (hbody st hst)).2
  · rw [Statement.length_instructions hcode.all_isCode, hcode.words_body]
    rfl
  · rw [Streams.temps_extend]
    conv_lhs => rw [hcode.temps_eq, List.map_map]
    rfl
  · rw [List.length_map, hcode.length_temps]
    rfl

/-- Two tables, one of which is declared again with another size, and a variable that is assigned to
    twice. -/
def redeclared : Node :=
  .program [.tableInit "t".toList ['9'] ['1'], .tableInit "u".toList ['1'] ['4'],
    .assign "x".toList (.intLit ['2']),
    .whileLoop (.binary .lt (.ident "x".toList) (.intLit ['5']))
      (.block [.assignAt "t".toList (.intLit ['0']) (.ident "x".toList),
        .assign "x".toList (.binary .add (.ident "x".toList) (.intLit ['1']))]),
    .tableInit "t".toList ['2'] ['7']]

/-- The second table stands behind the two cells that the first one has in the end. -/
theorem layout_of_redeclared :
    ∃ asm body contents, link redeclared = .ok asm ∧ ProgramLayout redeclared asm body contents ∧
      asm.layout.map.Has haltName .label 41 ∧ asm.layout.map.Has "tab_u".toList (.data 1) 52 ∧
      asm.layout.map.Has "var_x".toList (.data 1) 53 := by
  have hok : (link redeclared).toOption.isSome = true := by decide +kernel
  have hcost : redeclared.cost = 41 := by decide +kernel
  have htemporaries : redeclared.temporaries = 6 := by decide +kernel
  have htables : redeclared.tables.entries = [("t".toList, 2, 7)] ++ ("u".toList, 1, 4) :: [] := by
    decide +kernel
  have hscalars : redeclared.scalars = [] ++ "x".toList :: [] := by decide +kernel
  cases hlink : link redeclared with
  | error fault => rw [hlink] at hok; cases hok
  | ok asm =>
    obtain ⟨-, body, contents, -, -, -, hbody, -, hcontents, hlayout⟩ :=
      layout_of_link (by decide) hlink
    have hhalt := hlayout.halt
    have htable := hlayout.table htables
    have hvar := hlayout.var hscalars
    rw [hbody, hcost] at hhalt
    rw [hbody, hcost, hcontents, htemporaries] at htable hvar
    rw [Node.tableCells, htables] at hvar
    exact ⟨asm, body, contents, rfl, hlayout, hhalt, htable, hvar⟩

end Minicore
