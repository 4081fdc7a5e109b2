/-
  THE SECOND PASS — what it makes of any lines whatever.

  Problem: a layout can be put together by hand, with addresses that no first pass would give, with any
  map, and with lines whose text says something else.  The second pass checks such a layout while it
  encodes it: it counts the words again, and looks every symbol up.

  1. **The counter** — within 16 bits `advance` is addition (`advance_ofNat`), so the records of a
     statement at the counter are computed without a fault, but for its symbol (`records_spec`).

  2. **Objections** — a statement that does not stand behind the words before it is objected to, whatever
     it says; one that does, if its symbol is not in the map (`Objection`).

  3. **Step** — at an objection the pass stops; behind any other line it goes on, with the records of the
     line in front (`encodeLines_of_objection`, `encodeLines_of_accepted`).

  4. **Run** — so the FIRST line with an objection decides, and without one the records are those of the
     lines, one line behind another (`encodeLines_run`).
-/
import Minicore.Assembly.Encoding
import Minicore.Proofs.Assembly.Placement
import Mathlib.Data.List.Forall2

namespace Minicore

/-! ## The counter -/

/-- Within 16 bits the counter never stops. -/
theorem advance_ofNat {pc n : Nat} (h : pc + n ≤ maxWord) :
    advance (UInt16.ofNat pc) n = .ok (UInt16.ofNat (pc + n)) := by
  have hpc : (UInt16.ofNat pc).toNat = pc := toNat_ofNat_of_le (by omega)
  have hn : n % (maxWord + 1) = n := Nat.mod_eq_of_lt (by omega)
  unfold advance
  rw [hpc, hn, if_pos h]

/-- The words of a statement, when names stand where the map says; an instruction whose symbol stands
    nowhere has none. -/
def Statement.wordsIn (map : AddressMap) : Statement → List Word
  | .code op none => [.instruction op 0]
  | .code op (some p) =>
    match map.resolve p with
    | .ok v => [.instruction op v]
    | .error _ => []
  | .label _ => []
  | .data _ values => values.map .data

namespace SourceLine

/-! ## The records of one line -/

/-- The records that the second pass makes of a line at its address. -/
def produced (map : AddressMap) (l : SourceLine) : List Record :=
  match l.statement, l.address with
  | some s, some a => (l.records map a s).toOption.getD []
  | _, _ => []

theorem records_code (l : SourceLine) (map : AddressMap) (pc : UInt16) (op : Opcode)
    (param : Option Param) :
    l.records map pc (.code op param) =
      (l.operand map param).map fun v => [⟨pc, .instruction op v, l.comment⟩] := rfl

theorem records_label (l : SourceLine) (map : AddressMap) (pc : UInt16) (name : Text) :
    l.records map pc (.label name) = .ok [] := rfl

/-- The data words of a declaration from its `k`-th value on. -/
def dataRecords (l : SourceLine) (pc k : Nat) (values : List UInt16) : List Record :=
  (values.zipIdx k).map fun vi => ⟨UInt16.ofNat (pc + vi.2), .data vi.1, l.comment⟩

/-- A declaration becomes its values at consecutive addresses. -/
theorem records_data {l : SourceLine} {map : AddressMap} {pc : Nat} {name : Text}
    {values : List UInt16} (h : pc + values.length ≤ maxWord) :
    l.records map (UInt16.ofNat pc) (.data name values) = .ok (l.dataRecords pc 0 values) := by
  suffices hk : ∀ k, pc + k + values.length ≤ maxWord →
      (values.zipIdx k).mapM (fun vi => (advance (UInt16.ofNat pc) vi.2).map fun a =>
        (⟨a, .data vi.1, l.comment⟩ : Record)) = .ok (l.dataRecords pc k values) from
    hk 0 (by omega)
  -- the index of the first value is general, so that the tail is a case of the statement
  clear h
  induction values with
  | nil => intro k _; rfl
  | cons v values ih =>
    intro k hk
    rw [List.length_cons] at hk
    rw [List.zipIdx_cons, List.mapM_cons, ih (k + 1) (by omega), advance_ofNat (by omega)]
    rfl

theorem words_dataRecords (l : SourceLine) (pc k : Nat) (values : List UInt16) :
    (l.dataRecords pc k values).map Record.word = values.map Word.data := by
  induction values generalizing k with
  | nil => rfl
  | cons v values ih =>
    have := ih (k + 1)
    simp only [dataRecords, List.zipIdx_cons, List.map_cons] at this ⊢
    rw [this]

theorem addresses_dataRecords {l : SourceLine} {pc k : Nat} {values : List UInt16}
    (h : pc + k + values.length ≤ maxWord) :
    (l.dataRecords pc k values).map (fun r => r.address.toNat) =
      List.range' (pc + k) values.length := by
  induction values generalizing k with
  | nil => rfl
  | cons v values ih =>
    rw [List.length_cons] at h
    have := ih (k := k + 1) (by omega)
    simp only [dataRecords, List.zipIdx_cons, List.map_cons, List.length_cons] at this ⊢
    rw [this, List.range'_succ, toNat_ofNat_of_le (by omega), Nat.add_assoc]

/-- Every record carries the line it comes from. -/
theorem comments_dataRecords (l : SourceLine) (pc k : Nat) (values : List UInt16) :
    (l.dataRecords pc k values).map Record.comment = List.replicate values.length l.comment := by
  rw [List.eq_replicate_iff]
  refine ⟨by simp [dataRecords], fun c hc => ?_⟩
  simp only [dataRecords, List.map_map, List.mem_map, Function.comp_apply] at hc
  obtain ⟨vi, -, rfl⟩ := hc
  rfl

/-- The records of a line without a statement. -/
theorem produced_skip {l : SourceLine} {map : AddressMap} (h : l.statement = none) :
    l.produced map = [] := by
  simp [produced, h]

/-- The records of a statement, once they are known. -/
theorem produced_of_records {l : SourceLine} {map : AddressMap} {s : Statement} {a : UInt16}
    {own : List Record} (hs : l.statement = some s) (ha : l.address = some a)
    (h : l.records map a s = .ok own) : l.produced map = own := by
  simp [produced, hs, ha, h, Except.toOption]

/-- An instruction whose symbol the map does not have has no records. -/
theorem records_unknown (l : SourceLine) {map : AddressMap} (pc : UInt16) (op : Opcode) {x : Text}
    (h : map.address? x = none) : l.records map pc (.code op (some (.symbol x))) =
      .error ⟨.unresolvedSymbol x, some ⟨l.index + 1, l.text⟩⟩ := by
  simp [records_code, operand, AddressMap.resolve, h, Fault.locate, Fault.ofCause, Except.map]

/-- **One statement**: within 16 bits, either its symbol is not in the map, or it becomes as many
    records as it is wide, at consecutive addresses, with its words and each with the trimmed line. -/
theorem records_spec (l : SourceLine) (map : AddressMap) {pc : Nat} {s : Statement}
    (h : pc + s.width ≤ maxWord) :
    (∃ op x, s = .code op (some (.symbol x)) ∧ map.address? x = none) ∨
    ∃ own, l.records map (UInt16.ofNat pc) s = .ok own ∧
      own.map (fun r => r.address.toNat) = List.range' pc s.width ∧
      own.map Record.comment = List.replicate s.width l.comment ∧
      own.map Record.word = s.wordsIn map := by
  cases s with
  | label name => exact .inr ⟨[], records_label .., rfl, rfl, rfl⟩
  | data name values =>
    have hk : pc + 0 + values.length ≤ maxWord := h
    exact .inr ⟨_, records_data h, addresses_dataRecords hk, comments_dataRecords ..,
      words_dataRecords ..⟩
  | code op param =>
    -- an instruction has one word, and only a symbol can fail
    have hpc : (UInt16.ofNat pc).toNat = pc := by
      have hw : pc + 1 ≤ maxWord := h
      exact toNat_ofNat_of_le (by omega)
    have hone : ∀ v, ([⟨UInt16.ofNat pc, .instruction op v, l.comment⟩] : List Record).map
        (fun r => r.address.toNat) = List.range' pc 1 := fun v => by
      rw [List.map_singleton, hpc]; rfl
    rw [records_code]
    cases param with
    | none => exact .inr ⟨_, rfl, hone 0, rfl, rfl⟩
    | some p =>
      cases p with
      | literal v => exact .inr ⟨_, rfl, hone v, rfl, rfl⟩
      | symbol x =>
        cases ha : map.address? x with
        | none => exact .inl ⟨op, x, rfl, ha⟩
        | some a =>
          have hres : map.resolve (.symbol x) = .ok a := by simp [AddressMap.resolve, ha]
          refine .inr ⟨[⟨UInt16.ofNat pc, .instruction op a, l.comment⟩], ?_, hone a, rfl, ?_⟩
          · simp [operand, hres, Except.map]
          · simp [Statement.wordsIn, hres]

/-! ## Objections -/

/-- The line has the address `n`. -/
def StandsAt (l : SourceLine) (n : Nat) : Prop := ∃ a, l.address = some a ∧ a.toNat = n

theorem standsAt_iff {l : SourceLine} {n : Nat} (h : n ≤ maxWord) :
    l.StandsAt n ↔ l.address = some (UInt16.ofNat n) := by
  constructor
  · rintro ⟨a, ha, rfl⟩
    rw [ha, UInt16.ofNat_toNat]
  · intro ha
    exact ⟨_, ha, toNat_ofNat_of_le h⟩

/-- Behind `n` words, the words of a statement end within 16 bits. -/
def HasRoom (n : Nat) (l : SourceLine) : Prop := l.statement ≠ none → n + l.width ≤ maxWord

/-- What the second pass has against a line behind `n` words: it does not stand there; or it does, and
    its symbol is not in the map. -/
inductive Objection (map : AddressMap) (n : Nat) (l : SourceLine) : Fault → Prop
  | moved {s : Statement} : l.statement = some s → ¬ l.StandsAt n →
      Objection map n l (.ofCause (.movedLine l.index))
  | unresolved {op : Opcode} {x : Text} : l.statement = some (.code op (some (.symbol x))) →
      l.StandsAt n → map.address? x = none →
      Objection map n l ⟨.unresolvedSymbol x, some ⟨l.index + 1, l.text⟩⟩

/-- The second pass has nothing against the line. -/
def Accepted (map : AddressMap) (n : Nat) (l : SourceLine) : Prop := ∀ f, ¬ Objection map n l f

/-- Only a statement is looked at: at its address, then at its symbol. -/
theorem accepted_iff {map : AddressMap} {n : Nat} {l : SourceLine} : Accepted map n l ↔
    (l.statement ≠ none → l.StandsAt n) ∧
      ∀ op x, l.statement = some (.code op (some (.symbol x))) → (map.address? x).isSome := by
  constructor
  · intro h
    have hstands : l.statement ≠ none → l.StandsAt n := fun hs => by
      obtain ⟨s, hs⟩ := Option.ne_none_iff_exists'.1 hs
      by_contra hnot
      exact h _ (.moved hs hnot)
    refine ⟨hstands, fun op x hs => ?_⟩
    cases ha : map.address? x with
    | some a => rfl
    | none => exact absurd (.unresolved hs (hstands (by simp [hs])) ha) (h _)
  · rintro ⟨hstands, hknown⟩ f hf
    cases hf with
    | moved hs hnot => exact hnot (hstands (by simp [hs]))
    | unresolved hs _ ha =>
      have := hknown _ _ hs
      rw [ha] at this
      cases this

/-- **One line**: there is an objection; or the line has one record per word, at the addresses from `n`
    on, with the trimmed line, and with the words of its statement. -/
theorem objection_or_produced (map : AddressMap) {n : Nat} {l : SourceLine} (hroom : l.HasRoom n) :
    (∃ f, Objection map n l f) ∨
    ((l.produced map).map (fun r => r.address.toNat) = List.range' n l.width ∧
      (l.produced map).map Record.comment = List.replicate l.width l.comment ∧
      (l.produced map).map Record.word = l.statement.toList.flatMap (·.wordsIn map)) ∧
    ∀ s, l.statement = some s → l.address = some (UInt16.ofNat n) ∧
      l.records map (UInt16.ofNat n) s = .ok (l.produced map) := by
  cases hs : l.statement with
  | none =>
    refine .inr ⟨?_, fun s h => by cases h⟩
    rw [produced_skip hs, width_of_no_statement hs]
    exact ⟨rfl, rfl, rfl⟩
  | some s =>
    have hle : n + s.width ≤ maxWord := width_of_statement hs ▸ hroom (by simp [hs])
    by_cases hstands : l.StandsAt n
    · have ha := (standsAt_iff (by omega)).1 hstands
      rcases records_spec l map hle with ⟨op, x, rfl, hx⟩ | ⟨own, hown, hspec⟩
      · exact .inl ⟨_, .unresolved hs hstands hx⟩
      · refine .inr ?_
        rw [produced_of_records hs ha hown, width_of_statement hs]
        refine ⟨by simpa using hspec, fun s' h => ?_⟩
        obtain rfl := Option.some.inj h
        exact ⟨ha, hown⟩
    · exact .inl ⟨_, .moved hs hstands⟩

/-- The records of a line that there is nothing against. -/
theorem Accepted.produced {map : AddressMap} {n : Nat} {l : SourceLine} (h : Accepted map n l)
    (hroom : l.HasRoom n) :
    (l.produced map).map (fun r => r.address.toNat) = List.range' n l.width ∧
      (l.produced map).map Record.comment = List.replicate l.width l.comment ∧
      (l.produced map).map Record.word = l.statement.toList.flatMap (·.wordsIn map) := by
  rcases objection_or_produced map hroom with ⟨f, hf⟩ | ⟨hspec, -⟩
  · exact absurd hf (h f)
  · exact hspec

end SourceLine

/-! ## The walk -/

namespace Layout

open SourceLine

section Walk

variable {map : AddressMap} {n : Nat} {l : SourceLine} {ls : List SourceLine}

/-- A statement that stands at the counter is encoded, and then what follows. -/
theorem encodeLines_statement {s : Statement} (hs : l.statement = some s)
    (ha : l.address = some (UInt16.ofNat n)) (hfit : n + s.width ≤ maxWord) :
    encodeLines map (UInt16.ofNat n) (l :: ls) = (l.records map (UInt16.ofNat n) s).bind
      fun own => (encodeLines map (UInt16.ofNat (n + s.width)) ls).map (own ++ ·) := by
  cases hr : l.records map (UInt16.ofNat n) s with
  | error e =>
    simp only [encodeLines, hs, ha, if_true, hr]
    rfl
  | ok own =>
    cases hrest : encodeLines map (UInt16.ofNat (n + s.width)) ls with
    | error e =>
      simp only [encodeLines, hs, ha, if_true, hr, hrest, advance_ofNat hfit]
      rfl
    | ok others =>
      simp only [encodeLines, hs, ha, if_true, hr, hrest, advance_ofNat hfit]
      rfl

/-- **Step**: at an objection the second pass stops. -/
theorem encodeLines_of_objection {f : Fault} (h : Objection map n l f) (hroom : l.HasRoom n) :
    encodeLines map (UInt16.ofNat n) (l :: ls) = .error f := by
  cases h with
  | @moved s hs hnot =>
    have hle := hroom (by simp [hs])
    have ha : ¬ l.address = some (UInt16.ofNat n) := fun ha => hnot ((standsAt_iff (by omega)).2 ha)
    simp only [encodeLines, hs, if_neg ha]
  | unresolved hs hstands hx =>
    have hle := hroom (by simp [hs])
    have ha := (standsAt_iff (by omega)).1 hstands
    rw [encodeLines_statement hs ha (width_of_statement hs ▸ hle), records_unknown l _ _ hx]
    rfl

/-- **Step**: behind a line that there is nothing against it goes on. -/
theorem encodeLines_of_accepted (h : Accepted map n l) (hroom : l.HasRoom n) :
    encodeLines map (UInt16.ofNat n) (l :: ls) =
      (encodeLines map (UInt16.ofNat (n + l.width)) ls).map (l.produced map ++ ·) := by
  rcases objection_or_produced map hroom with ⟨f, hf⟩ | ⟨-, hown⟩
  · exact absurd hf (h f)
  · cases hs : l.statement with
    | none =>
      rw [width_of_no_statement hs, produced_skip hs, Nat.add_zero]
      simp only [encodeLines, hs]
      cases encodeLines map (UInt16.ofNat n) ls <;> rfl
    | some s =>
      obtain ⟨ha, hrecords⟩ := hown s hs
      have hle := hroom (by simp [hs])
      rw [width_of_statement hs] at hle ⊢
      rw [encodeLines_statement hs ha hle, hrecords]
      rfl

/-! ## Every line and the words before it -/

/-- Something holds of every line and the number of words before it, when `n` words come before all. -/
def Along (P : Nat → SourceLine → Prop) (n : Nat) (ls : List SourceLine) : Prop :=
  ∀ before l after, ls = before ++ l :: after → P (n + words before) l

theorem along_nil (P : Nat → SourceLine → Prop) (n : Nat) : Along P n [] := by
  intro before l after h
  simp at h

theorem along_cons {P : Nat → SourceLine → Prop} :
    Along P n (l :: ls) ↔ P n l ∧ Along P (n + l.width) ls := by
  constructor
  · intro h
    refine ⟨h [] l ls rfl, fun before l' after hls => ?_⟩
    have hfront := h (l :: before) l' after (by rw [hls, List.cons_append])
    rwa [words_cons, ← Nat.add_assoc] at hfront
  · rintro ⟨hl, hls⟩ before l' after hsplit
    cases before with
    | nil =>
      obtain ⟨rfl, rfl⟩ := List.cons.inj hsplit
      exact hl
    | cons b before =>
      obtain ⟨rfl, hrest⟩ := List.cons.inj hsplit
      rw [words_cons, ← Nat.add_assoc]
      exact hls before l' after hrest

theorem Along.drop {P : Nat → SourceLine → Prop} {before : List SourceLine}
    (h : Along P n (before ++ ls)) : Along P (n + words before) ls := by
  intro between l after hls
  have hl := h (before ++ between) l after (by rw [hls, List.append_assoc])
  rwa [words_append, ← Nat.add_assoc] at hl

/-- Where the words of all lines end within 16 bits, those of every line do. -/
theorem along_room (h : n + words ls ≤ maxWord) : Along HasRoom n ls := by
  intro before l after hls _
  rw [hls, words_append, words_cons] at h
  omega

/-- **Run**: the first line with an objection decides; without one the records are those of the lines. -/
theorem encodeLines_run (map : AddressMap) (hroom : Along HasRoom n ls) :
    (∃ before l after f, ls = before ++ l :: after ∧ Along (Accepted map) n before ∧
      Objection map (n + words before) l f ∧ encodeLines map (UInt16.ofNat n) ls = .error f) ∨
    Along (Accepted map) n ls ∧
      encodeLines map (UInt16.ofNat n) ls = .ok (ls.flatMap fun l => l.produced map) := by
  -- along the lines, for every count of words that they start with
  induction ls generalizing n with
  | nil => exact .inr ⟨along_nil _ n, rfl⟩
  | cons l ls ih =>
    obtain ⟨hl, hls⟩ := along_cons.1 hroom
    by_cases haccepted : Accepted map n l
    · rw [encodeLines_of_accepted haccepted hl]
      rcases ih hls with ⟨before, l', after, f, rfl, hbefore, hf, herror⟩ | ⟨hall, hok⟩
      · refine .inl ⟨l :: before, l', after, f, rfl, along_cons.2 ⟨haccepted, hbefore⟩, ?_, ?_⟩
        · rwa [words_cons, ← Nat.add_assoc]
        · rw [herror]
          rfl
      · refine .inr ⟨along_cons.2 ⟨haccepted, hall⟩, ?_⟩
        rw [hok, List.flatMap_cons]
        rfl
    · obtain ⟨f, hf⟩ := not_forall_not.1 haccepted
      exact .inl ⟨[], l, ls, f, rfl, along_nil _ n, hf, encodeLines_of_objection hf hl⟩

/-- The line that decides: the first one with an objection. -/
theorem encodeLines_of_first {f : Fault} {before after : List SourceLine}
    (hbefore : Along (Accepted map) n before) (hf : Objection map (n + words before) l f)
    (hroom : Along HasRoom n (before ++ l :: after)) :
    encodeLines map (UInt16.ofNat n) (before ++ l :: after) = .error f := by
  induction before generalizing n with
  | nil => exact encodeLines_of_objection hf (along_cons.1 hroom).1
  | cons b before ih =>
    obtain ⟨hb, hbefore⟩ := along_cons.1 hbefore
    obtain ⟨hbroom, hroom⟩ := along_cons.1 hroom
    rw [words_cons, ← Nat.add_assoc] at hf
    rw [List.cons_append, encodeLines_of_accepted hb hbroom, ih hbefore hf hroom]
    rfl

/-- The records of accepted lines stand at consecutive addresses, from the words before them on. -/
theorem addresses_of_accepted (h : Along (Accepted map) n ls) (hroom : Along HasRoom n ls) :
    (ls.flatMap fun l => l.produced map).map (fun r => r.address.toNat) =
      List.range' n (words ls) := by
  induction ls generalizing n with
  | nil => rfl
  | cons l ls ih =>
    obtain ⟨hl, hls⟩ := along_cons.1 h
    obtain ⟨hlroom, hroom⟩ := along_cons.1 hroom
    rw [List.flatMap_cons, List.map_append, (hl.produced hlroom).1, ih hls hroom, words_cons,
      List.range'_append_1]

/-- The records of accepted lines are the words of the statements, each with the trimmed line. -/
theorem contents_of_accepted (h : Along (Accepted map) n ls) (hroom : Along HasRoom n ls) :
    (ls.flatMap fun l => l.produced map).map (fun r => (r.word, r.comment)) =
      ls.flatMap fun l => l.statement.toList.flatMap fun s =>
        (s.wordsIn map).map fun w => (w, l.comment) := by
  induction ls generalizing n with
  | nil => rfl
  | cons l ls ih =>
    obtain ⟨hl, hls⟩ := along_cons.1 h
    obtain ⟨hlroom, hroom⟩ := along_cons.1 hroom
    obtain ⟨-, hcomments, hwords⟩ := hl.produced hlroom
    have hcomment : ∀ r ∈ l.produced map, r.comment = l.comment := fun r hr =>
      List.eq_of_mem_replicate (hcomments ▸ List.mem_map_of_mem hr)
    have hown : (l.produced map).map (fun r => (r.word, r.comment)) =
        ((l.produced map).map Record.word).map fun w => (w, l.comment) := by
      rw [List.map_map]
      exact List.map_congr_left fun r hr => by rw [hcomment r hr]; rfl
    rw [List.flatMap_cons, List.map_append, ih hls hroom, hown, hwords, List.map_flatMap,
      List.flatMap_cons]

end Walk

/-! ## Any layout -/

/-- The same line, perhaps with another address if it is no statement. -/
def Readdressed (l l' : SourceLine) : Prop :=
  l' = l ∨ l.statement = none ∧ ∃ a, l' = { l with address := a }

/-- What has no words is not looked at. -/
theorem encodeLines_readdressed (map : AddressMap) {ls ls' : List SourceLine}
    (h : List.Forall₂ Readdressed ls ls') (pc : UInt16) :
    encodeLines map pc ls' = encodeLines map pc ls := by
  induction h generalizing pc with
  | nil => rfl
  | cons hl _ ih =>
    rcases hl with rfl | ⟨hs, a, rfl⟩
    · simp only [encodeLines, ih]
    · simp only [encodeLines, hs, ih]

/-- **The second pass on any layout.**  For every layout, however it came about, whose lines take no more
    words than 16 bits can count: there are records exactly when every statement stands at the number of
    words before it and every symbol is in the map.  The records then stand at `0, 1, …`, one for each
    word, and are, line by line, the words of the statement with the trimmed line.  Otherwise the first
    line that there is an objection to decides: that it does not stand there, or if it does, that its
    symbol is unknown.  The address of a line that is no statement never matters. -/
theorem encode_of_any_layout (l : Layout) (h : words l.lines ≤ maxWord) :
    ((∃ records, l.encode = .ok records) ↔
      ∀ before line after, l.lines = before ++ line :: after →
        (line.statement ≠ none → line.StandsAt (words before)) ∧
        ∀ op x, line.statement = some (.code op (some (.symbol x))) → (l.map.address? x).isSome) ∧
    (∀ records, l.encode = .ok records →
      records.map (fun r => r.address.toNat) = List.range (words l.lines) ∧
      records.map (fun r => (r.word, r.comment)) = l.lines.flatMap fun line =>
        line.statement.toList.flatMap fun s => (s.wordsIn l.map).map fun w => (w, line.text.trim)) ∧
    (∀ f, l.encode = .error f ↔ ∃ before line after, l.lines = before ++ line :: after ∧
      (∀ past earlier next, before = past ++ earlier :: next →
        ∀ g, ¬ Objection l.map (words past) earlier g) ∧
      Objection l.map (words before) line f) ∧
    ∀ lines, List.Forall₂ Readdressed l.lines lines →
      Layout.encode { l with lines := lines } = l.encode := by
  have hroom : Along HasRoom 0 l.lines := along_room (by rwa [Nat.zero_add])
  have hencode : l.encode = encodeLines l.map (UInt16.ofNat 0) l.lines := rfl
  have hrun := encodeLines_run l.map hroom
  simp only [Along, Nat.zero_add, ← hencode] at hrun
  refine ⟨?_, ?_, ?_, fun lines hlines => encodeLines_readdressed l.map hlines 0⟩
  · simp only [← accepted_iff]
    constructor
    · rintro ⟨records, hok⟩
      rcases hrun with ⟨_, _, _, f, _, _, _, herror⟩ | ⟨hall, -⟩
      · rw [herror] at hok
        cases hok
      · exact hall
    · intro hall
      rcases hrun with ⟨before, line, after, f, hlines, -, hf, -⟩ | ⟨-, hok⟩
      · exact absurd hf (hall before line after hlines f)
      · exact ⟨_, hok⟩
  · intro records hok
    rcases encodeLines_run l.map hroom with ⟨_, _, _, f, _, _, _, herror⟩ | ⟨hall, hok'⟩
    · rw [← hencode, hok] at herror
      cases herror
    · obtain rfl := Except.ok.inj (hok.symm.trans hok')
      exact ⟨(addresses_of_accepted hall hroom).trans List.range_eq_range'.symm,
        contents_of_accepted hall hroom⟩
  · intro f
    constructor
    · intro herror
      rcases hrun with ⟨before, line, after, g, hlines, hbefore, hg, herror'⟩ | ⟨-, hok⟩
      · obtain rfl : g = f := Except.error.inj (herror'.symm.trans herror)
        exact ⟨before, line, after, hlines, hbefore, hg⟩
      · rw [herror] at hok
        cases hok
    · rintro ⟨before, line, after, hlines, hbefore, hf⟩
      have hfirst : Along (Accepted l.map) 0 before := by
        intro past earlier next hsplit
        rw [Nat.zero_add]
        exact hbefore past earlier next hsplit
      rw [hlines] at hroom hencode
      rw [hencode]
      exact encodeLines_of_first hfirst (by rwa [Nat.zero_add]) hroom

/-- Lines with indices and texts of their own, an address far out where there is no statement, a symbol that
    only the map has; and last a line that is out of place and has an unknown symbol besides. -/
def handMade : Layout :=
  ⟨[⟨7, " B x ".toList, some (.code .b (some (.symbol "x".toList))), some 0⟩,
    ⟨0, "".toList, none, some 99⟩,
    ⟨3, "t DCB 1, 2".toList, some (.data "t".toList [1, 2]), some 1⟩,
    ⟨9, "B y".toList, some (.code .b (some (.symbol "y".toList))), some 4⟩],
   OrderedMap.ofList [("x".toList, ⟨0, .label, 1000⟩)], 0, []⟩

/-- All lines but the last have records; the last one is told for its place. -/
theorem encode_of_handMade : words handMade.lines ≤ maxWord ∧
    (∃ records, Layout.encode { handMade with lines := handMade.lines.take 3 } = .ok records ∧
      records.map (fun r => (r.word, r.comment)) =
        [(.instruction .b 1000, "B x".toList), (.data 1, "t DCB 1, 2".toList),
          (.data 2, "t DCB 1, 2".toList)]) ∧
    handMade.encode = .error (.ofCause (.movedLine 9)) := by
  have hfront := encode_of_any_layout { handMade with lines := handMade.lines.take 3 } (by decide)
  have hall := encode_of_any_layout handMade (by decide)
  refine ⟨by decide, ⟨_, rfl, (hfront.2.1 _ rfl).2⟩, ?_⟩
  refine (hall.2.2.1 _).2 ⟨handMade.lines.take 3, _, [], rfl, fun past earlier next hsplit => ?_, ?_⟩
  · exact accepted_iff.2 (hfront.1.1 ⟨_, rfl⟩ past earlier next hsplit)
  · refine .moved rfl ?_
    rintro ⟨a, ha, hn⟩
    cases ha
    exact absurd hn (by decide)

end Layout

end Minicore
