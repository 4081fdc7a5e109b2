/-
  DOUBTS — the warnings of a text, told by its lines.

  Problem: that a definition replaces another one is noticed by a map which forgets what it replaces, in
  the middle of a walk over all lines.  Whoever reads a warning wants it told by the lines of the text:
  which line is doubtful, and which other line it is about.

  1. **Specification** — `Text.Defines`: a line is a label or a declaration of that name.
     `Text.Doubtful`: a line holds something and is no statement; or it defines a name that an earlier
     line defines, and the LATEST of these is the one that is named.

  2. **Step** — one line causes at most one warning, about itself; what it says of an earlier line is
     read in the map of all lines before (`mem_doubtsOf_iff`).

  3. **Run** — so the warnings are the doubtful lines, in order (`mem_warnings_iff`,
     `Placed.pairwise_doubts`); and a defining line either puts a new name into the map or is warned
     about (`count_doubts`).

  4. **Wording** — the text of a warning calls the line that it names the FIRST one.  It is the latest, and
     the first only if there is one earlier definition (`named_line_of_warning`).
-/
import Minicore.Proofs.Assembly.Resolution
import Minicore.Proofs.Text.Numerals

namespace Minicore

theorem Statement.name?_eq_some_iff {s : Statement} {x : Text} :
    s.name? = some x ↔ s = .label x ∨ ∃ values, s = .data x values := by
  cases s with
  | code op param => simp [name?]
  | label name => simp [name?]
  | data name values => simp [name?]

/-- The line is a label or a declaration. -/
def Statement.isDefining (raw : Text) : Bool :=
  match read raw with
  | .ok (some (.label _)) => true
  | .ok (some (.data _ _)) => true
  | _ => false

namespace Doubt

/-- The doubt is about a name that is defined already. -/
def isRedefined : Doubt → Bool
  | .ignored => false
  | .redefined _ _ => true

/-- The wording that calls a line, counted from one, the line where the name is first defined. -/
def firstDefinedAt (name : Text) (line : Nat) : Text :=
  "Re-defined label: `".toList ++ name ++ "` (first defined at line ".toList ++
    Numeral.decimal line ++ "), the later value is used".toList

/-- Different lines are worded differently. -/
theorem firstDefinedAt_inj {name : Text} {m n : Nat}
    (h : firstDefinedAt name m = firstDefinedAt name n) : m = n := by
  unfold firstDefinedAt at h
  rw [List.append_assoc, List.append_assoc _ (Numeral.decimal n)] at h
  exact Numeral.decimal_injective (List.append_cancel_right (List.append_cancel_left h))

end Doubt

/-! ## Doubtful lines -/

namespace Text

/-- The line of that index is a label or a declaration of the name. -/
def Defines (t : Text) (i : Nat) (x : Text) : Prop :=
  ∃ raw, t.lines[i]? = some raw ∧ (Statement.read raw = .ok (some (.label x)) ∨
    ∃ values, Statement.read raw = .ok (some (.data x values)))

/-- What is doubtful about the line of that index. -/
inductive Doubtful (t : Text) : Nat → Doubt → Prop
  /-- The line is not blank, and is no statement. -/
  | ignored {i : Nat} {raw : Text} : t.lines[i]? = some raw → raw.blank = false →
      Statement.read raw = .ok none → Doubtful t i .ignored
  /-- The line defines a name, and line `j` is the latest of those before it that define the name. -/
  | redefined {i j : Nat} {x : Text} : t.Defines i x → j < i → t.Defines j x →
      (∀ k, j < k → k < i → ¬ t.Defines k x) → Doubtful t i (.redefined x j)

/-- There is one latest line. -/
theorem Doubtful.latest_unique {t : Text} {i j k : Nat} {x : Text} (hj : t.Doubtful i (.redefined x j))
    (hk : t.Doubtful i (.redefined x k)) : j = k := by
  cases hj with
  | redefined _ hji hdj hlaterj =>
    cases hk with
    | redefined _ hki hdk hlaterk =>
      rcases Nat.lt_trichotomy j k with hlt | heq | hgt
      · exact absurd hdk (hlaterj k hlt hki)
      · exact heq
      · exact absurd hdj (hlaterk j hgt hji)

end Text

namespace Layout

open SourceLine

variable {t : Text} {l : Layout}

/-! ## Lines by their index -/

section Lines

variable (h : ofText t = .ok l)

include h

/-- A line of the text is a line of the layout, which says what is read. -/
theorem getElem?_lines_iff {i : Nat} {raw : Text} : t.lines[i]? = some raw ↔
    ∃ line, l.lines[i]? = some line ∧ line.text = raw := by
  rw [← (lines_of_ofText h).1, List.getElem?_map, Option.map_eq_some_iff]

theorem read_of_getElem? {i : Nat} {line : SourceLine} (hl : l.lines[i]? = some line) :
    t.lines[i]? = some line.text ∧ Statement.read line.text = .ok line.statement :=
  ⟨(getElem?_lines_iff h).2 ⟨line, hl, rfl⟩, (lines_of_ofText h).2 line (List.mem_of_getElem? hl)⟩

theorem defines_iff {i : Nat} {x : Text} :
    t.Defines i x ↔ ∃ line, l.lines[i]? = some line ∧ line.name? = some x := by
  have hname : ∀ line : SourceLine, line.name? = some x ↔
      line.statement = some (.label x) ∨ ∃ values, line.statement = some (.data x values) := by
    intro line
    rw [name?, Option.bind_eq_some_iff]
    simp only [Statement.name?_eq_some_iff]
    constructor
    · rintro ⟨s, hs, rfl | ⟨values, rfl⟩⟩
      · exact .inl hs
      · exact .inr ⟨values, hs⟩
    · rintro (hs | ⟨values, hs⟩)
      · exact ⟨_, hs, .inl rfl⟩
      · exact ⟨_, hs, .inr ⟨values, rfl⟩⟩
  constructor
  · rintro ⟨raw, hraw, hread⟩
    obtain ⟨line, hl, rfl⟩ := (getElem?_lines_iff h).1 hraw
    refine ⟨line, hl, (hname line).2 ?_⟩
    simpa only [(read_of_getElem? h hl).2, Except.ok.injEq] using hread
  · rintro ⟨line, hl, hx⟩
    obtain ⟨hraw, hread⟩ := read_of_getElem? h hl
    refine ⟨line.text, hraw, ?_⟩
    simpa only [hread, Except.ok.injEq] using (hname line).1 hx

/-- **What the map of the lines before says of a name**: the latest of them that defines it. -/
theorem latest_of_find? {before rest : List SourceLine} (hl : l.lines = before ++ rest) {x : Text}
    {e : Entry} (he : OrderedMap.find? (enter OrderedMap.empty before) x = some e) :
    e.line < before.length ∧ t.Defines e.line x ∧
      ∀ k, e.line < k → k < before.length → ¬ t.Defines k x := by
  have hp := placed_of_ofText h
  rw [hl] at hp
  obtain ⟨front, line, after, s, rfl, hs, hx, hlater, rfl⟩ := hp.take.find?_enter he
  have hname : line.name? = some x := by rw [name?_of_statement hs, hx]
  refine ⟨by simp, (defines_iff h).2 ⟨line, by rw [hl]; simp, hname⟩, ?_⟩
  intro k hk hlength hdefines
  obtain ⟨later, hget, hsame⟩ := (defines_iff h).1 hdefines
  -- a line between the two is one of those behind the definition
  obtain ⟨n, rfl⟩ := Nat.exists_eq_add_of_lt (show front.length < k from hk)
  rw [Nat.add_assoc] at hlength hget
  rw [hl, List.getElem?_append_left hlength, List.getElem?_append_right (by omega),
    Nat.add_sub_cancel_left, List.getElem?_cons_succ] at hget
  exact hlater later (List.mem_of_getElem? hget) hsame

theorem find?_enter_eq_none_iff {before rest : List SourceLine} (hl : l.lines = before ++ rest) {x : Text} :
    OrderedMap.find? (enter OrderedMap.empty before) x = none ↔
      ∀ k < before.length, ¬ t.Defines k x := by
  have hp := placed_of_ofText h
  rw [hl] at hp
  have hkeys : (enter OrderedMap.empty before).keys = (before.filterMap name?).eraseDups := by
    rw [← hp.take.names]
    exact OrderedMap.keys_ofList _
  rw [OrderedMap.find?_eq_none_iff, hkeys, List.mem_eraseDups, List.mem_filterMap]
  constructor
  · intro hnone k hk hdefines
    obtain ⟨line, hget, hname⟩ := (defines_iff h).1 hdefines
    rw [hl, List.getElem?_append_left hk] at hget
    exact hnone ⟨line, List.mem_of_getElem? hget, hname⟩
  · rintro hall ⟨line, hmem, hname⟩
    obtain ⟨k, hget⟩ := List.getElem?_of_mem hmem
    obtain ⟨hk, -⟩ := List.getElem?_eq_some_iff.1 hget
    apply hall k hk
    exact (defines_iff h).2 ⟨line, by rw [hl, List.getElem?_append_left hk, hget], hname⟩

end Lines

/-! ## One line -/

/-- The warning about one line when the names of `map` are known. -/
def doubtsOf (map : AddressMap) (line : SourceLine) : List Warning :=
  match line.statement with
  | none => skipped line.index line.text
  | some s => redefinition map line.index s

theorem doubts_cons (map : AddressMap) (line : SourceLine) (ls : List SourceLine) :
    doubts map (line :: ls) = doubtsOf map line ++ doubts (enter map [line]) ls := rfl

theorem mem_skipped_iff {i : Nat} {raw : Text} {w : Warning} :
    w ∈ skipped i raw ↔ raw.blank = false ∧ w = ⟨i, .ignored⟩ := by
  unfold skipped
  by_cases hblank : raw.blank = true
  · simp [hblank]
  · simp [hblank]

theorem mem_redefinition_iff {map : AddressMap} {i : Nat} {s : Statement} {w : Warning} :
    w ∈ redefinition map i s ↔ ∃ x e, s.name? = some x ∧ OrderedMap.find? map x = some e ∧
      w = ⟨i, .redefined x e.line⟩ := by
  unfold redefinition
  cases hname : s.name? with
  | none => simp
  | some x => cases hfind : OrderedMap.find? map x <;> simp [hfind]

/-- At most one. -/
theorem length_doubtsOf_le_one (map : AddressMap) (line : SourceLine) :
    (doubtsOf map line).length ≤ 1 := by
  unfold doubtsOf skipped redefinition
  split
  · split <;> simp
  · split
    · simp
    · split <;> simp

/-- About the line itself. -/
theorem index_of_mem_doubtsOf {map : AddressMap} {line : SourceLine} {w : Warning}
    (hw : w ∈ doubtsOf map line) : w.index = line.index := by
  unfold doubtsOf at hw
  split at hw
  · obtain ⟨-, rfl⟩ := mem_skipped_iff.1 hw
    rfl
  · obtain ⟨x, e, -, -, rfl⟩ := mem_redefinition_iff.1 hw
    rfl

section Step

variable (h : ofText t = .ok l) {before after : List SourceLine} {line : SourceLine}
  (hl : l.lines = before ++ line :: after)

include h hl

/-- The line behind `before` has the index that counts them, and says what is read. -/
theorem line_of_split : line.index = before.length ∧ l.lines[before.length]? = some line ∧
    t.lines[before.length]? = some line.text ∧ Statement.read line.text = .ok line.statement := by
  have hget : l.lines[before.length]? = some line := by
    rw [hl]
    simp
  exact ⟨(line_of_ofText h hl).1, hget, read_of_getElem? h hget⟩

/-- What a line is warned about is doubtful. -/
theorem doubtful_of_mem_doubtsOf {w : Warning}
    (hw : w ∈ doubtsOf (enter OrderedMap.empty before) line) : t.Doubtful before.length w.doubt := by
  obtain ⟨-, hget, hraw, hread⟩ := line_of_split h hl
  unfold doubtsOf at hw
  split at hw
  · rename_i hnone
    obtain ⟨hblank, rfl⟩ := mem_skipped_iff.1 hw
    rw [hnone] at hread
    exact .ignored hraw hblank hread
  · rename_i s hs
    obtain ⟨x, e, hx, he, rfl⟩ := mem_redefinition_iff.1 hw
    obtain ⟨hlt, hdefines, hlater⟩ := latest_of_find? h hl he
    have hname : line.name? = some x := by rw [name?_of_statement hs, hx]
    exact .redefined ((defines_iff h).2 ⟨line, hget, hname⟩) hlt hdefines hlater

/-- What is doubtful about a line it is warned about. -/
theorem mem_doubtsOf_of_doubtful {d : Doubt} (hdoubtful : t.Doubtful before.length d) :
    ⟨line.index, d⟩ ∈ doubtsOf (enter OrderedMap.empty before) line := by
  obtain ⟨-, hget, hraw, hread⟩ := line_of_split h hl
  have hsame := hdoubtful
  unfold doubtsOf
  cases hdoubtful with
  | ignored hraw' hblank hread' =>
    obtain rfl := Option.some.inj (hraw.symm.trans hraw')
    rw [hread] at hread'
    rw [Except.ok.inj hread']
    exact mem_skipped_iff.2 ⟨hblank, rfl⟩
  | @redefined j x hdefines hlt hdefinesj hlater =>
    obtain ⟨line', hget', hname⟩ := (defines_iff h).1 hdefines
    obtain rfl := Option.some.inj (hget.symm.trans hget')
    obtain ⟨s, hs, hx⟩ := Option.bind_eq_some_iff.1 hname
    rw [hs]
    -- the map knows the name, since an earlier line defines it
    cases he : OrderedMap.find? (enter OrderedMap.empty before) x with
    | none => exact absurd hdefinesj ((find?_enter_eq_none_iff h hl).1 he j hlt)
    | some e =>
      obtain ⟨hlt', hdefines', hlater'⟩ := latest_of_find? h hl he
      obtain rfl : j = e.line := hsame.latest_unique (.redefined hdefines hlt' hdefines' hlater')
      exact mem_redefinition_iff.2 ⟨x, e, hx, he, rfl⟩

/-- **Step**: with the map of the lines before, a line is warned about exactly when it is doubtful. -/
theorem mem_doubtsOf_iff {w : Warning} : w ∈ doubtsOf (enter OrderedMap.empty before) line ↔
    w.index = before.length ∧ t.Doubtful before.length w.doubt := by
  have hindex := (line_of_split h hl).1
  constructor
  · intro hw
    exact ⟨(index_of_mem_doubtsOf hw).trans hindex, doubtful_of_mem_doubtsOf h hl hw⟩
  · rintro ⟨hi, hdoubtful⟩
    obtain ⟨i, d⟩ := w
    obtain rfl : i = line.index := hi.trans hindex.symm
    exact mem_doubtsOf_of_doubtful h hl hdoubtful

end Step

/-! ## All lines -/

/-- A warning is about one of the lines, with the map of those before it. -/
theorem mem_doubts_iff {map : AddressMap} {ls : List SourceLine} {w : Warning} :
    w ∈ doubts map ls ↔
      ∃ before line after, ls = before ++ line :: after ∧ w ∈ doubtsOf (enter map before) line := by
  induction ls generalizing map with
  | nil =>
    constructor
    · intro hw
      cases hw
    · rintro ⟨before, line, after, hsplit, -⟩
      simp at hsplit
  | cons first ls ih =>
    rw [doubts_cons, List.mem_append, ih]
    constructor
    · rintro (hw | ⟨before, line, after, rfl, hw⟩)
      · exact ⟨[], first, ls, rfl, hw⟩
      · refine ⟨first :: before, line, after, rfl, ?_⟩
        rwa [enter_cons]
    · rintro ⟨before, line, after, hsplit, hw⟩
      cases before with
      | nil =>
        obtain ⟨rfl, rfl⟩ := List.cons.inj hsplit
        exact .inl hw
      | cons b before =>
        obtain ⟨rfl, rfl⟩ := List.cons.inj hsplit
        rw [enter_cons] at hw
        exact .inr ⟨before, line, after, rfl, hw⟩

/-- **Run**: the warnings are the doubtful lines. -/
theorem mem_warnings_iff (h : ofText t = .ok l) {i : Nat} {d : Doubt} :
    ⟨i, d⟩ ∈ l.warnings ↔ t.Doubtful i d := by
  rw [warnings_of_ofText h, mem_doubts_iff]
  constructor
  · rintro ⟨before, line, after, hl, hw⟩
    obtain ⟨rfl, hdoubtful⟩ := (mem_doubtsOf_iff h hl).1 hw
    exact hdoubtful
  · intro hdoubtful
    obtain ⟨raw, hraw⟩ : ∃ raw, t.lines[i]? = some raw := by
      cases hdoubtful with
      | ignored hraw _ _ => exact ⟨_, hraw⟩
      | redefined hdefines _ _ _ => exact ⟨_, hdefines.choose_spec.1⟩
    obtain ⟨line, hget, -⟩ := (getElem?_lines_iff h).1 hraw
    obtain ⟨hlt, rfl⟩ := List.getElem?_eq_some_iff.1 hget
    have hl : l.lines = l.lines.take i ++ l.lines[i] :: l.lines.drop (i + 1) := by
      rw [List.getElem_cons_drop, List.take_append_drop]
    have hlength : (l.lines.take i).length = i := List.length_take_of_le (Nat.le_of_lt hlt)
    refine ⟨_, _, _, hl, (mem_doubtsOf_iff h hl).2 ?_⟩
    rw [hlength]
    exact ⟨rfl, hdoubtful⟩

/-- One more line in front. -/
theorem pairwise_doubts_cons {map : AddressMap} {line : SourceLine} {ls : List SourceLine}
    (hbounds : ∀ w ∈ doubts (enter map [line]) ls, line.index + 1 ≤ w.index)
    (hpairs : (doubts (enter map [line]) ls).Pairwise fun v w => v.index < w.index) :
    (∀ w ∈ doubts map (line :: ls), line.index ≤ w.index) ∧
      (doubts map (line :: ls)).Pairwise fun v w => v.index < w.index := by
  rw [doubts_cons]
  constructor
  · intro w hw
    rcases List.mem_append.1 hw with hw | hw
    · exact Nat.le_of_eq (index_of_mem_doubtsOf hw).symm
    · exact Nat.le_of_succ_le (hbounds w hw)
  · rw [List.pairwise_append]
    refine ⟨?_, hpairs, ?_⟩
    · have hlength := length_doubtsOf_le_one map line
      match hone : doubtsOf map line with
      | [] => exact .nil
      | [w] => exact List.pairwise_singleton _ w
      | _ :: _ :: _ =>
        rw [hone] at hlength
        simp at hlength
    · intro v hv w hw
      rw [index_of_mem_doubtsOf hv]
      exact hbounds w hw

/-- **Order**: one warning for a line at most, and later lines come later. -/
theorem Placed.pairwise_doubts {i pc : Nat} {ls : List SourceLine} (hp : Placed i pc ls)
    (map : AddressMap) : (∀ w ∈ doubts map ls, i ≤ w.index) ∧
      (doubts map ls).Pairwise fun v w => v.index < w.index := by
  induction hp generalizing map with
  | nil => exact ⟨by simp [doubts], .nil⟩
  | skip _ _ ih => exact pairwise_doubts_cons (ih _).1 (ih _).2
  | statement _ _ _ ih => exact pairwise_doubts_cons (ih _).1 (ih _).2

/-! ## Counting -/

/-- **Step**: a line that defines a name makes the map longer, or is warned about. -/
theorem count_doubtsOf {i pc : Nat} {line : SourceLine} {ls : List SourceLine}
    (hp : Placed i pc (line :: ls)) (map : AddressMap) :
    (doubtsOf map line).countP (fun w => w.doubt.isRedefined) + (enter map [line]).size =
      map.size + line.name?.toList.length := by
  cases hp with
  | @skip _ _ raw _ _ _ =>
    have hnone : (skipped i raw).countP (fun w => w.doubt.isRedefined) = 0 := by
      rw [List.countP_eq_zero]
      intro w hw
      obtain ⟨-, rfl⟩ := mem_skipped_iff.1 hw
      exact Bool.false_ne_true
    rw [enter_skip rfl]
    show (skipped i raw).countP _ + map.size = map.size + 0
    omega
  | @statement _ _ raw s _ _ _ _ =>
    rw [enter_statement, name?_of_statement rfl, define]
    show (redefinition map i s).countP _ + _ = _
    cases hname : s.name? with
    | none => simp [redefinition, hname]
    | some x =>
      show _ + (OrderedMap.insert map x _).size = map.size + 1
      rw [OrderedMap.size_insert]
      cases hfind : OrderedMap.find? map x with
      | none =>
        have hnew : x ∉ map.keys := (OrderedMap.find?_eq_none_iff map x).1 hfind
        simp [redefinition, hname, hfind, hnew]
      | some e =>
        have hknown : x ∈ map.keys := by
          by_contra hnot
          rw [(OrderedMap.find?_eq_none_iff map x).2 hnot] at hfind
          cases hfind
        simp only [redefinition, hname, hfind, if_pos hknown]
        exact Nat.add_comm 1 _

/-- **Run**: the names that the lines define are in the map or warned about. -/
theorem count_doubts {i pc : Nat} {ls : List SourceLine} (hp : Placed i pc ls) (map : AddressMap) :
    (doubts map ls).countP (fun w => w.doubt.isRedefined) + (enter map ls).size =
      map.size + (ls.filterMap name?).length := by
  induction ls generalizing i pc map with
  | nil => exact Nat.zero_add _
  | cons line ls ih =>
    have hstep := count_doubtsOf hp map
    obtain ⟨j, qc, htail⟩ := hp.tail
    have hrest := ih htail (enter map [line])
    have hlength : ((line :: ls).filterMap name?).length =
        line.name?.toList.length + (ls.filterMap name?).length := by
      cases hname : line.name? with
      | none => rw [List.filterMap_cons_none hname, Option.toList_none, List.length_nil, Nat.zero_add]
      | some x =>
        rw [List.filterMap_cons_some hname, List.length_cons]
        exact Nat.add_comm _ 1
    rw [doubts_cons, List.countP_append, enter_cons map line ls, hlength]
    omega

/-- The lines that define a name. -/
theorem length_names (h : ofText t = .ok l) :
    (l.lines.filterMap name?).length = t.lines.countP Statement.isDefining := by
  rw [← (lines_of_ofText h).1, List.countP_map, List.length_filterMap_eq_countP]
  apply List.countP_congr
  intro line hline
  have hread := (lines_of_ofText h).2 line hline
  have hsome : Statement.isDefining line.text = line.name?.isSome := by
    rw [Statement.isDefining, hread, name?]
    cases line.statement with
    | none => rfl
    | some s => cases s <;> rfl
  rw [Function.comp_apply, hsome]

/-! ## The whole -/

/-- **Warnings are exact.**  For every text that has a layout, the warnings are in line order, one for a line
    at most; a line has the warning that it is ignored exactly when it is not blank and is no statement,
    and the warning that it redefines a name exactly when it is a label or a declaration of a name that
    an earlier line defines, the latest of these being the one named; and as many lines define a name
    as there are names in the map and warnings of redefinition together. -/
theorem warnings_of_lines (h : ofText t = .ok l) :
    l.warnings.Pairwise (fun v w => v.index < w.index) ∧
      (∀ i d, ⟨i, d⟩ ∈ l.warnings ↔ t.Doubtful i d) ∧
      l.warnings.countP (fun w => w.doubt.isRedefined) + l.map.size =
        t.lines.countP Statement.isDefining := by
  have hp := placed_of_ofText h
  refine ⟨?_, fun i d => mem_warnings_iff h, ?_⟩
  · rw [warnings_of_ofText h]
    exact (hp.pairwise_doubts _).2
  · have hcount := count_doubts hp OrderedMap.empty
    rw [length_names h] at hcount
    have hmap : l.map = enter OrderedMap.empty l.lines := map_of_ofText h
    rw [warnings_of_ofText h, hmap, hcount]
    exact Nat.zero_add _

/-- A label, a declaration of the same name, a line that only looks blank and one that is, a line that is no
    statement, an empty declaration of the name again, and another name. -/
def repeatedNames : Text := "a\n a DCB 1\n\u3000\n\nno line\na DCB\nb\u00A0DCB\n".toList

theorem warnings_of_repeatedNames :
    ∃ l, ofText repeatedNames = .ok l ∧ repeatedNames.Doubtful 5 (.redefined "a".toList 1) ∧
      repeatedNames.Doubtful 4 .ignored ∧ (∀ d, ¬ repeatedNames.Doubtful 2 d) ∧
      2 + l.map.size = repeatedNames.lines.countP Statement.isDefining := by
  have hwarnings : (ofText repeatedNames).map (fun l => l.warnings) =
      .ok [⟨1, .redefined "a".toList 0⟩, ⟨4, .ignored⟩, ⟨5, .redefined "a".toList 1⟩] := rfl
  cases h : ofText repeatedNames with
  | error e => rw [h] at hwarnings; cases hwarnings
  | ok l =>
    obtain ⟨-, hexact, hcount⟩ := warnings_of_lines h
    rw [h] at hwarnings
    have hlist : l.warnings = _ := Except.ok.inj hwarnings
    rw [hlist] at hexact hcount
    refine ⟨l, rfl, (hexact 5 _).1 (by decide), (hexact 4 _).1 (by decide), ?_, hcount⟩
    intro d hd
    have hmem := (hexact 2 d).2 hd
    simp at hmem

/-! ## What the wording says -/

/-- **The line that a redefinition names.**  The text of the warning calls exactly one line the one where
    the name is first defined.  It is the LATEST line before the warned one that defines the name; and it
    is the first line of the text that does so exactly when it is the only one before. -/
theorem named_line_of_warning (h : ofText t = .ok l) {i j : Nat} {x : Text}
    (hw : ⟨i, .redefined x j⟩ ∈ l.warnings) :
    ∃ n, (∀ m, (Doubt.redefined x j).message = Doubt.firstDefinedAt x m ↔ m = n) ∧
      (∃ k, n = k + 1 ∧ k < i ∧ t.Defines k x ∧ ∀ k', k < k' → k' < i → ¬ t.Defines k' x) ∧
      ((∀ k, t.Defines k x → n ≤ k + 1) ↔ ∀ k, k < i → t.Defines k x → n = k + 1) := by
  have hdoubtful := (mem_warnings_iff h).1 hw
  cases hdoubtful with
  | redefined _ hlt hdefines hlater =>
    refine ⟨j + 1, ?_, ⟨j, rfl, hlt, hdefines, hlater⟩, ?_, ?_⟩
    · intro m
      constructor
      · intro hsame
        exact (Doubt.firstDefinedAt_inj hsame).symm
      · rintro rfl
        rfl
    · intro hfirst k hk hdefk
      have hle := hfirst k hdefk
      by_contra hne
      exact hlater k (by omega) hk hdefk
    · intro hone k hdefk
      by_cases hk : k < i
      · exact Nat.le_of_eq (hone k hk hdefk)
      · omega

/-- One label on three lines. -/
def threefold : Text := "a\na\na\n".toList

/-- The second redefinition calls the second line the first one. -/
theorem named_line_of_threefold :
    ∃ l, ofText threefold = .ok l ∧ ⟨2, .redefined "a".toList 1⟩ ∈ l.warnings ∧
      (Doubt.redefined "a".toList 1).message = Doubt.firstDefinedAt "a".toList 2 ∧
      threefold.Defines 0 "a".toList ∧ ¬ ∀ k, threefold.Defines k "a".toList → 2 ≤ k + 1 := by
  have hwarnings : (ofText threefold).map (fun l => l.warnings) =
      .ok [⟨1, .redefined "a".toList 0⟩, ⟨2, .redefined "a".toList 1⟩] := rfl
  cases h : ofText threefold with
  | error e => rw [h] at hwarnings; cases hwarnings
  | ok l =>
    rw [h] at hwarnings
    have hlist : l.warnings = _ := Except.ok.inj hwarnings
    have hw : ⟨2, .redefined "a".toList 1⟩ ∈ l.warnings := by
      rw [hlist]
      decide
    obtain ⟨n, htext, -, hfirst⟩ := named_line_of_warning h hw
    obtain rfl : 2 = n := (htext 2).1 rfl
    have hdefines : threefold.Defines 0 "a".toList := ⟨"a".toList, rfl, .inl rfl⟩
    refine ⟨l, rfl, hw, (htext 2).2 rfl, hdefines, ?_⟩
    intro hall
    have hsame := hfirst.1 hall 0 (by decide) hdefines
    omega

end Layout

end Minicore
