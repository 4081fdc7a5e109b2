/-
  WARNINGS about generated code — when every generated line is understood.

  Problem: a build throws the warnings of the assembler away, which is sound only if a generated text
  never causes one.  One name of the tree flows unchecked into a line: that of an assigned table.  Blanks
  in it make the line unreadable, and a line feed in it starts lines that the tree never meant.

  1. **One line** — the load of a table's base is understood exactly when what follows `tab_` on the
     line is, up to trailing blanks, letters, digits and underscores (`read_base`, `not_read_base`).

  2. **Later lines** — the rest of the name stands in the text as lines of its own
     (`Node.strayLines`), which have to be blank or statements, and may define names.

  3. **Exactness** — there are no warnings exactly when all first lines are understood, all stray lines
     are blank or statements, and no stray name comes twice or is a name of the program
     (`warnings_of_compile`).  Identifiers are harmless (`harmlessTargets_of_identifiers`), but nothing
     asks for them.
-/
import Minicore.Build
import Minicore.Proofs.Codegen.Readable

namespace Minicore

/-! ## The line that loads a base -/

/-- What stands on the line before the name of the table. -/
def basePrefix : Text := "    MOV R1, #tab_".toList

namespace Statement

/-- What a line is depends on what is left when it is trimmed. -/
theorem classify_congr {s t : Text} (h : s.trim = t.trim) :
    Catalog.standard.classify s = Catalog.standard.classify t := by
  unfold Catalog.classify
  rw [h]

theorem codeText_mov1 (p : Param) :
    codeText .mov1 (some p) = "MOV R1, #".toList ++ p.text := by
  have hjoin : codeText .mov1 (some p) =
      "MOV".toList ++ ' ' :: Text.join ", " ["R1".toList, '#' :: p.text] := rfl
  rw [hjoin, Text.join_cons_cons, Text.join_singleton]
  rfl

/-- Letters, digits and underscores make a name. -/
theorem read_base {f : Text} (h : f.trimEnd.all Text.continuesIdentifier = true) :
    read (basePrefix ++ f) =
      .ok (some (.code .mov1 (some (.symbol (tableName f.trimEnd))))) := by
  obtain ⟨b, hb, hf⟩ := Text.exists_trimEnd_append f
  have hreadable : (Statement.code .mov1 (some (.symbol (tableName f.trimEnd)))).Readable :=
    Code.readable_mov1 (isSymbol_tableName h)
  have hclassify := classify_codeText (b := "    ".toList) (by decide) hreadable
  have hline : basePrefix ++ f =
      ("    ".toList ++ codeText .mov1 (some (.symbol (tableName f.trimEnd)))) ++ b := by
    conv => lhs; rw [hf]
    rw [← List.append_assoc, codeText_mov1]
    rfl
  rw [← classify_congr (Text.trim_append hb _), ← hline] at hclassify
  unfold read
  simp only [hclassify]

/-- As many operands as tokens. -/
theorem length_of_readOperands {ts : List Text} {operands : List Operand}
    (h : Catalog.readOperands ts = .ok (some operands)) : operands.length = ts.length := by
  induction ts generalizing operands with
  | nil =>
    obtain rfl : [] = operands := Option.some.inj (Except.ok.inj h)
    rfl
  | cons t ts ih =>
    simp only [Catalog.readOperands] at h
    split at h
    · cases h
    · cases h
    · split at h
      · cases h
      · cases h
      · rename_i rest hrest
        obtain rfl := Option.some.inj (Except.ok.inj h)
        rw [List.length_cons, List.length_cons, ih hrest]

/-- What is trimmed of the line, when something follows the prefix. -/
theorem trim_base {f : Text} (hne : f.trimEnd ≠ []) :
    (basePrefix ++ f).trim = "MOV".toList ++ ' ' :: ("R1, #tab_".toList ++ f.trimEnd) := by
  have hnot : f.blank = false := by
    rw [← Bool.not_eq_true, ← Text.trimEnd_eq_nil_iff]
    exact hne
  have hstart : (basePrefix ++ f).trimStart = "MOV R1, #tab_".toList ++ f := rfl
  rw [Text.trim, hstart, Text.trimEnd_append, hnot, if_neg (by simp)]
  rfl

/-- The tokens of the line: the register, and the fields of what follows. -/
theorem tokens_base {g field : Text} {rest : List Text} (hg : g.trimEnd = g) (hne : g ≠ [])
    (h : g.fields = field :: rest) :
    Catalog.tokens (Text.trim ("R1, #tab_".toList ++ g)) =
      "R1".toList :: Text.trimEnd ("#tab_".toList ++ field) :: rest.map Text.trim := by
  have hnot : g.blank = false := by
    rw [← Bool.not_eq_true, ← Text.trimEnd_eq_nil_iff, hg]
    exact hne
  have htrim : Text.trim ("R1, #tab_".toList ++ g) = "R1, #tab_".toList ++ g := by
    have hstart : Text.trimStart ("R1, #tab_".toList ++ g) = "R1, #tab_".toList ++ g := rfl
    rw [Text.trim, hstart, Text.trimEnd_append, hnot, if_neg (by simp), hg]
  have hcut : Text.fields ("R1, #tab_".toList ++ g) =
      "R1".toList :: (" #tab_".toList ++ field) :: rest := by
    have hsplit := Text.splitBy_append_cons (p := (· == ',')) (c := ',') rfl "R1".toList
      (" #tab_".toList ++ g)
    have hcomma : " #tab_".toList.any (· == ',') = false := by decide
    rw [Text.splitBy_append fun c hc => Bool.eq_false_iff.2 (List.any_eq_false.1 hcomma c hc)] at hsplit
    have hg' : Text.splitBy (· == ',') g = field :: rest := h
    rw [hg'] at hsplit
    exact hsplit
  unfold Catalog.tokens
  rw [htrim, hcut, if_neg (by simp)]
  rfl

/-- A shape takes as many operands as it has slots. -/
theorem filter_accepts_of_length {ps : List Pattern} {n : Nat} {operands : List Operand}
    (hps : ∀ p ∈ ps, p.slots.length = n) (hlen : operands.length ≠ n) :
    ps.filter (fun p => p.accepts operands) = [] := by
  rw [List.filter_eq_nil_iff]
  intro p hp haccept
  rw [Pattern.accepts_eq, beq_iff_eq] at haccept
  have hslots := hps p hp
  rw [haccept, List.length_map] at hslots
  exact hlen hslots

/-- The name behind the `#` is no symbol. -/
theorem read_token_base {g : Text} (hg : g.trimEnd = g) (h : g.all Text.continuesIdentifier = false) :
    Operand.read (Text.trimEnd ("#tab_".toList ++ g)) = .ok none := by
  have hnot : g.blank = false := by
    rw [← Bool.not_eq_true, ← Text.trimEnd_eq_nil_iff, hg]
    rintro rfl
    cases h
  have hsymbol : (tableName g).isSymbol = false := by
    rw [← Bool.not_eq_true]
    intro hs
    have hall := Text.all_continues_of_isIdentifier (Text.isIdentifier_of_isSymbol hs)
    rw [tableName, List.all_append, h, Bool.and_false] at hall
    cases hall
  rw [Text.trimEnd_append, hnot, if_neg (by simp), hg]
  show Operand.read ('#' :: tableName g) = .ok none
  rw [Operand.read_hash]
  have hdigit : 't'.isDigit = false := by decide
  have hcons : tableName g = 't' :: ("ab_".toList ++ g) := rfl
  rw [hcons] at hsymbol ⊢
  simp only [Operand.readValue, hdigit, hsymbol, Bool.false_eq_true, if_false]

/-- With anything else behind the `#`, the line is no instruction. -/
theorem not_classify_base {f : Text} (h : f.trimEnd.all Text.continuesIdentifier = false)
    (m : Catalog.Match) : Catalog.standard.classify (basePrefix ++ f) ≠ .ok (some m) := by
  have hne : f.trimEnd ≠ [] := by
    intro hnil
    rw [hnil] at h
    cases h
  have hmov : ∀ c ∈ "MOV".toList, isBlank c = false := Text.not_blank_of_solid (by decide)
  have hhead : (basePrefix ++ f).trim.headAndRest =
      ("MOV".toList, Text.trim ("R1, #tab_".toList ++ f.trimEnd)) := by
    rw [trim_base hne, Text.headAndRest_append hmov]
  obtain ⟨field, rest, hfields⟩ :=
    List.exists_cons_of_ne_nil (Text.splitBy_ne_nil (· == ',') f.trimEnd)
  rw [← Text.fields] at hfields
  have htokens := tokens_base (Text.trimEnd_trimEnd f) hne hfields
  have hname : Mnemonic.ofName? "MOV".toList = some .mov := by decide
  have htwo : ∀ p ∈ Catalog.standard.candidates .mov, p.slots.length = 2 := by decide
  intro hm
  unfold Catalog.classify at hm
  simp only [hhead, hname, htokens] at hm
  split at hm
  · cases hm
  · cases rest with
    | nil =>
      -- no comma: the rest of the line is one token, and no symbol
      have hfield : f.trimEnd = field := by
        have hjoin := Text.join_fields f.trimEnd
        rw [hfields, Text.join_singleton] at hjoin
        exact hjoin.symm
      rw [← hfield] at hm
      have htoken := read_token_base (Text.trimEnd_trimEnd f) h
      have hregister : Operand.read "R1".toList = .ok (some (.register .r1)) := rfl
      simp only [Catalog.readOperands, hregister, htoken] at hm
      cases hm
    | cons next rest =>
      -- a comma: two operands at most have a shape
      split at hm
      · cases hm
      · cases hm
      · rename_i operands hoperands
        have hlen := length_of_readOperands hoperands
        have hmany : operands.length ≠ 2 := by
          rw [hlen]
          simp
        rw [filter_accepts_of_length htwo hmany] at hm
        cases hm

/-- Nor is it a label or a declaration, whatever the name is. -/
theorem ofWords_base (f : Text) : ofWords (basePrefix ++ f).words = .ok none := by
  have hsplit : basePrefix ++ f = "    ".toList ++ ("MOV".toList ++ ' ' :: ("R1,".toList ++
      ' ' :: ("#tab_".toList ++ f))) := rfl
  rw [hsplit, Text.words_indented (by decide), Text.words_append_cons (by decide),
    Text.words_append_cons (by decide)]
  rfl

/-- So the line is understood with letters, digits and underscores only. -/
theorem not_read_base {f : Text} (h : f.trimEnd.all Text.continuesIdentifier = false) (s : Statement) :
    read (basePrefix ++ f) ≠ .ok (some s) := by
  unfold read
  intro hread
  cases hc : Catalog.standard.classify (basePrefix ++ f) with
  | error e => rw [hc] at hread; cases hread
  | ok found =>
    cases found with
    | some m => exact not_classify_base h m hc
    | none =>
      rw [hc] at hread
      simp only [ofWords_base] at hread
      cases hread

end Statement

/-! ## Stray lines -/

/-- The part of a name that stays on the line where the name is written. -/
def Text.firstLine (x : Text) : Text := x.physical.headD []

/-- The lines that a name starts on its own. -/
def Text.laterLines (x : Text) : List Text := x.physical.tail

theorem Text.physical_eq (x : Text) : x.physical = x.firstLine :: x.laterLines := by
  obtain ⟨field, rest, h⟩ := List.exists_cons_of_ne_nil (splitBy_ne_nil (· == '\n') x)
  rw [firstLine, laterLines, physical, h]
  rfl

/-- The lines that the names of assigned tables start in the program. -/
def Node.strayLines (n : Node) : List Text := n.tableTargets.flatMap Text.laterLines

/-- The names that these lines define. -/
def Node.strayNames (n : Node) : List Text :=
  Statement.names (n.strayLines.filterMap Statement.ofLine?)

/-- What the names of the assigned tables have to be like for every line to be understood and no name to
    come twice. -/
structure Node.HarmlessTargets (n : Node) : Prop where
  /-- What stays on the line of a load is letters, digits and underscores, up to trailing blanks. -/
  first : ∀ x ∈ n.tableTargets, x.firstLine.trimEnd.all Text.continuesIdentifier = true
  /-- What does not is blank or a statement. -/
  later : ∀ raw ∈ n.strayLines, raw.blank = true ∨ ∃ s, Statement.read raw = .ok (some s)
  /-- The names defined there differ from one another … -/
  nodup : n.strayNames.Nodup
  /-- … and from those of the program. -/
  fresh : ∀ x ∈ n.strayNames, x ∉ Statement.names n.emission.program

/-- **The lines of one load**: the first is understood as told by the first line of the name, and then
    is a load; the others are the name's own. -/
theorem lines_base (x : Text) :
    ∃ first, Text.physical (Streams.bodyLine (Code.base x)) = first :: x.laterLines ∧
      (Layout.Meaningful first ↔ x.firstLine.trimEnd.all Text.continuesIdentifier = true) ∧
      ∀ s, Statement.ofLine? first = some s → ∃ p, s = .code .mov1 (some p) := by
  by_cases hx : x = screenName
  · -- the display memory is no name at all
    subst hx
    have hreadable : (Code.base screenName).Readable := Code.readable_mov1 rfl
    obtain ⟨hline, hread⟩ := Statement.read_bodyLine hreadable
    refine ⟨_, hline, ?_, fun s hs => ?_⟩
    · have hfirst : screenName.firstLine.trimEnd.all Text.continuesIdentifier = true := by decide
      exact ⟨fun _ => hfirst, fun _ => .inr ⟨_, hread⟩⟩
    · rw [Statement.ofLine?_of_read hread] at hs
      exact ⟨_, (Option.some.inj hs).symm⟩
  · have hline : Streams.bodyLine (Code.base x) = basePrefix ++ x := by
      have hbase : Code.base x = .code .mov1 (some (.symbol (tableName x))) := by
        rw [Code.base, tableBase, if_neg hx]
      rw [hbase]
      show "    ".toList ++ Statement.codeText .mov1 (some (.symbol (tableName x))) = _
      rw [Statement.codeText_mov1]
      rfl
    -- only the first line of the name stands on the line that loads it
    refine ⟨basePrefix ++ x.firstLine, ?_, ?_, fun s hs => ?_⟩
    · have hone : basePrefix.all (fun c => c != '\n' && c != '\r') = true := by decide
      have hfree : ∀ c ∈ basePrefix, c ≠ '\n' ∧ c ≠ '\r' := by
        intro c hc
        simpa using List.all_eq_true.1 hone c hc
      rw [hline, Text.physical_append hfree, Text.physical_eq]
      rfl
    · constructor
      · rintro (hblank | ⟨s, hs⟩)
        · have hprefix : basePrefix.all isBlank = false := by decide
          rw [Text.blank, List.all_append, hprefix] at hblank
          cases hblank
        · cases hall : x.firstLine.trimEnd.all Text.continuesIdentifier with
          | true => rfl
          | false => exact absurd hs (Statement.not_read_base hall s)
      · intro hall
        exact .inr ⟨_, Statement.read_base hall⟩
    · cases hall : x.firstLine.trimEnd.all Text.continuesIdentifier with
      | true =>
        rw [Statement.ofLine?_of_read (Statement.read_base hall)] at hs
        exact ⟨_, (Option.some.inj hs).symm⟩
      | false => exact absurd (Statement.ofLine?_eq_some_iff.1 hs) (Statement.not_read_base hall s)

section Lines

variable {xs : List Text} {rs body : List Statement}

/-- The lines of a body are those of its readable statements and of the loads of bases. -/
theorem mem_lines_iff (hp : body.Perm (rs ++ xs.map Code.base)) (raw : Text) :
    raw ∈ (body.map Streams.bodyLine).flatMap Text.physical ↔
      raw ∈ (rs.map Streams.bodyLine).flatMap Text.physical ∨
        ∃ x ∈ xs, raw ∈ Text.physical (Streams.bodyLine (Code.base x)) := by
  simp only [List.mem_flatMap, List.mem_map, hp.mem_iff, List.mem_append]
  constructor
  · rintro ⟨line, ⟨s, hs | ⟨x, hx, rfl⟩, rfl⟩, hraw⟩
    · exact .inl ⟨_, ⟨s, hs, rfl⟩, hraw⟩
    · exact .inr ⟨x, hx, hraw⟩
  · rintro (⟨line, ⟨s, hs, rfl⟩, hraw⟩ | ⟨x, hx, hraw⟩)
    · exact ⟨_, ⟨s, .inl hs, rfl⟩, hraw⟩
    · exact ⟨_, ⟨_, .inr ⟨x, hx, rfl⟩, rfl⟩, hraw⟩

/-- Every later line of a name is a line of the body. -/
theorem mem_lines_of_later (hp : body.Perm (rs ++ xs.map Code.base)) {raw : Text}
    (hraw : raw ∈ xs.flatMap Text.laterLines) :
    raw ∈ (body.map Streams.bodyLine).flatMap Text.physical := by
  obtain ⟨x, hx, hlater⟩ := List.mem_flatMap.1 hraw
  obtain ⟨first, hlines, -, -⟩ := lines_base x
  exact (mem_lines_iff hp raw).2 (.inr ⟨x, hx, by rw [hlines]; exact List.mem_cons_of_mem _ hlater⟩)

/-- All lines of a body are meaningful, exactly when those of the loads of bases are. -/
theorem Understood.meaningful (h : Understood xs body) :
    (∀ raw ∈ (body.map Streams.bodyLine).flatMap Text.physical, Layout.Meaningful raw) ↔
      (∀ x ∈ xs, x.firstLine.trimEnd.all Text.continuesIdentifier = true) ∧
        ∀ raw ∈ xs.flatMap Text.laterLines, Layout.Meaningful raw := by
  obtain ⟨rs, hr, hp⟩ := h
  have hreadable := (statements_lines hr fun s hs => Statement.read_bodyLine hs).2
  -- whether a line is meaningful does not depend on where it stands
  have hmem := mem_lines_iff hp
  constructor
  · intro hall
    refine ⟨fun x hx => ?_, fun raw hraw => hall raw (mem_lines_of_later hp hraw)⟩
    obtain ⟨first, hlines, hfirst, -⟩ := lines_base x
    exact hfirst.1 (hall first ((hmem first).2 (.inr ⟨x, hx, by rw [hlines]; simp⟩)))
  · rintro ⟨hfirsts, hlaters⟩ raw hraw
    rcases (hmem raw).1 hraw with hraw | ⟨x, hx, hraw⟩
    · exact hreadable raw hraw
    · obtain ⟨first, hlines, hfirst, -⟩ := lines_base x
      rw [hlines] at hraw
      rcases List.mem_cons.1 hraw with rfl | hraw
      · exact hfirst.2 (hfirsts x hx)
      · exact hlaters raw (List.mem_flatMap.2 ⟨x, hx, hraw⟩)

/-- **Where the statements of a text come from**: each is of the body, or a load, or read from a later
    line of a name. -/
theorem Understood.statement_cases (h : Understood xs body) {s : Statement}
    (hs : s ∈ ((body.map Streams.bodyLine).flatMap Text.physical).filterMap Statement.ofLine?) :
    s ∈ body ∨ (∃ p, s = .code .mov1 (some p)) ∨
      ∃ raw ∈ xs.flatMap Text.laterLines, Statement.ofLine? raw = some s := by
  obtain ⟨rs, hr, hp⟩ := h
  obtain ⟨raw, hraw, hread⟩ := List.mem_filterMap.1 hs
  rcases (mem_lines_iff hp raw).1 hraw with hraw | ⟨x, hx, hraw⟩
  · have hmem : s ∈ rs := by
      rw [← (statements_lines hr fun s hs => Statement.read_bodyLine hs).1]
      exact List.mem_filterMap.2 ⟨raw, hraw, hread⟩
    exact .inl (hp.mem_iff.2 (List.mem_append_left _ hmem))
  · obtain ⟨first, hlines, -, hload⟩ := lines_base x
    rw [hlines] at hraw
    rcases List.mem_cons.1 hraw with rfl | hraw
    · exact .inr (.inl (hload s hread))
    · exact .inr (.inr ⟨raw, List.mem_flatMap.2 ⟨x, hx, hraw⟩, hread⟩)

/-- The names that the lines of a body define are its own and the stray ones. -/
theorem Understood.names (h : Understood xs body) :
    (Statement.names (((body.map Streams.bodyLine).flatMap Text.physical).filterMap
        Statement.ofLine?)).Perm
      (Statement.names body ++
        Statement.names ((xs.flatMap Text.laterLines).filterMap Statement.ofLine?)) := by
  obtain ⟨rs, hr, hp⟩ := h
  have hreadable := (statements_lines hr fun s hs => Statement.read_bodyLine hs).1
  -- the loads themselves define no names, the lines behind them do
  have hbases : Statement.names ((((xs.map Code.base).map Streams.bodyLine).flatMap
      Text.physical).filterMap Statement.ofLine?) =
        Statement.names ((xs.flatMap Text.laterLines).filterMap Statement.ofLine?) := by
    clear hp
    induction xs with
    | nil => rfl
    | cons x xs ih =>
      obtain ⟨first, hlines, -, hload⟩ := lines_base x
      have hfirst : Statement.names (Statement.ofLine? first).toList = [] := by
        cases hs : Statement.ofLine? first with
        | none => rfl
        | some s =>
          obtain ⟨p, rfl⟩ := hload s hs
          rfl
      have hcons : (first :: x.laterLines).filterMap Statement.ofLine? =
          (Statement.ofLine? first).toList ++ x.laterLines.filterMap Statement.ofLine? := by
        cases hs : Statement.ofLine? first with
        | none => rw [List.filterMap_cons_none hs]; rfl
        | some s => rw [List.filterMap_cons_some hs]; rfl
      simp only [List.map_cons, List.flatMap_cons, List.filterMap_append, Statement.names_append, hlines,
        hcons, hfirst, ih, List.nil_append]
  have hnone : Statement.names (xs.map Code.base) = [] := by
    rw [Statement.names, List.filterMap_eq_nil_iff]
    intro s hs
    obtain ⟨x, -, rfl⟩ := List.mem_map.1 hs
    rfl
  have hbody : (Statement.names rs).Perm (Statement.names body) := by
    have hnames := (Statement.names_perm hp).symm
    rwa [Statement.names_append, hnone, List.append_nil] at hnames
  have hlines := Statement.names_perm
    (((hp.map Streams.bodyLine).flatMap_right Text.physical).filterMap Statement.ofLine?)
  rw [List.map_append, List.flatMap_append, List.filterMap_append, hreadable, Statement.names_append,
    hbases] at hlines
  exact hlines.trans (hbody.append_right _)

end Lines

/-- **Warnings about a compiled program.**  Whenever a program compiles and its text is laid out, there
    are no warnings exactly when the names of the tables that it assigns to are harmless. -/
theorem warnings_of_compile {n : Node} {t : Text} {l : Layout} (hc : compile n = .ok t)
    (hl : Layout.ofText t = .ok l) : l.warnings = [] ↔ n.HarmlessTargets := by
  obtain ⟨ss, last, ks, rfl, hcode, rfl⟩ := compile_derived hc
  have hunderstood := hcode.understood
  rw [← Node.tableTargets_program] at hunderstood
  obtain ⟨behind, hlines, hbehind, hmeaningful⟩ := hcode.lines_program
  have hall : (∀ raw ∈ (Text.unlines (Streams.empty.extend (Node.program ss).emission).lines).lines,
      Layout.Meaningful raw) ↔
        ∀ raw ∈ ((Node.program ss).emission.body.map Streams.bodyLine).flatMap Text.physical,
          Layout.Meaningful raw := by
    rw [hlines, List.forall_mem_append]
    exact and_iff_left hmeaningful
  have hnames : (Statement.names
      (Text.unlines (Streams.empty.extend (Node.program ss).emission).lines).statements).Perm
        ((Node.program ss).strayNames ++ Statement.names (Node.program ss).emission.program) := by
    have hprogram := Statement.names_append (Node.program ss).emission.body
      ([.label haltName, .code .b (some (.symbol haltName))] ++ (Node.program ss).emission.cells)
    rw [← Emission.program] at hprogram
    rw [Text.statements, hlines, List.filterMap_append, hbehind, Statement.names_append, hprogram]
    refine (hunderstood.names.append_right _).trans ?_
    rw [← List.append_assoc]
    exact .append_right _ List.perm_append_comm
  rw [Layout.warnings_eq_nil_iff hl, hall, hunderstood.meaningful, hnames.nodup_iff, List.nodup_append]
  constructor
  · rintro ⟨⟨hfirst, hlater⟩, hstray, -, hdisjoint⟩
    exact ⟨hfirst, hlater, hstray, fun x hx hmem => hdisjoint x hx x hmem rfl⟩
  · rintro ⟨hfirst, hlater, hstray, hdisjoint⟩
    refine ⟨⟨hfirst, hlater⟩, hstray, hcode.nodup_names, ?_⟩
    rintro x hx y hy rfl
    exact hdisjoint x hx hy

/-- The name of this table breaks the load of its base in two. -/
def spacedTarget : Node := .program [.assignAt "a b".toList (.intLit ['0']) (.intLit ['1'])]

theorem warned_of_spacedTarget :
    ∃ t l, compile spacedTarget = .ok t ∧ Layout.ofText t = .ok l ∧ l.warnings ≠ [] := by
  have hsome : ((compile spacedTarget).toOption.bind fun t => (Layout.ofText t).toOption).isSome =
      true := rfl
  cases hc : compile spacedTarget with
  | error e => rw [hc] at hsome; cases hsome
  | ok t =>
    rw [hc] at hsome
    cases hl : Layout.ofText t with
    | error e =>
      have hnone : ((Except.ok t : Except TreeFault Text).toOption.bind fun t =>
          (Layout.ofText t).toOption) = (Layout.ofText t).toOption := rfl
      rw [hnone, hl] at hsome
      cases hsome
    | ok l =>
      refine ⟨t, l, rfl, hl, fun hnil => ?_⟩
      have hfirst := ((warnings_of_compile hc hl).1 hnil).first "a b".toList (by decide)
      exact absurd hfirst (by decide)

/-- An identifier is a line, and starts no other. -/
theorem lines_of_identifier {x : Text} (h : x.isIdentifier = true) :
    x.firstLine = x ∧ x.laterLines = [] := by
  have hfree := Text.not_blank_of_solid (Text.solid_of_isIdentifier h)
  have hone : x.physical = [x] := by
    refine Text.physical_of_free (fun c hc heq => ?_) (fun hlast => ?_)
    · rw [heq] at hc
      exact absurd (hfree _ hc) (by decide)
    · exact absurd (hfree _ (List.mem_of_getLast? hlast)) (by decide)
  rw [Text.firstLine, Text.laterLines, hone]
  exact ⟨rfl, rfl⟩

/-- Identifiers make no stray lines. -/
theorem Node.strayLines_of_identifiers {n : Node}
    (hx : ∀ x ∈ n.tableTargets, x.isIdentifier = true) : n.strayLines = [] := by
  rw [strayLines, List.flatMap_eq_nil_iff]
  exact fun x hmem => (lines_of_identifier (hx x hmem)).2

/-- Identifiers are harmless. -/
theorem Node.harmlessTargets_of_identifiers {n : Node}
    (hx : ∀ x ∈ n.tableTargets, x.isIdentifier = true) : n.HarmlessTargets := by
  have hnone := strayLines_of_identifiers hx
  have hnames : n.strayNames = [] := by
    rw [strayNames, hnone]
    rfl
  constructor
  case first =>
    intro x hmem
    have hfree := Text.not_blank_of_solid (Text.solid_of_isIdentifier (hx x hmem))
    rw [(lines_of_identifier (hx x hmem)).1, (Text.trim_of_free hfree).2]
    exact Text.all_continues_of_isIdentifier (hx x hmem)
  case later =>
    rw [hnone]
    exact fun raw hraw => nomatch hraw
  case nodup =>
    rw [hnames]
    exact List.nodup_nil
  case fresh =>
    rw [hnames]
    exact fun x hmem => nomatch hmem

end Minicore
