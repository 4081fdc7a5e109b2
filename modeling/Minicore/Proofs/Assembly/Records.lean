/-
  RECORDS OF A LAYOUT — what the second pass makes of what the first pass laid out.

  Problem: the second pass counts addresses again, with a 16-bit counter and an assertion that its
  count is the first pass's.  On a layout of the first pass neither the assertion nor the counter may
  ever fail, and each statement must get exactly the words that it was given room for.

  1. **Placed lines** — they stand where the second pass counts to (`Placed.standsAt`), inside the image
     and so within 16 bits (`Placed.room`).  All that the second pass can have against one of them is
     that its symbol is not in the map (`Placed.unresolved`).

  2. **Spec lemma** — `encodeLines_spec`: the only fault left is a name that the map does not have, and
     otherwise the records are those of the lines, one line behind another.

  3. **Shares** — the records of one line are a contiguous stretch of all records, cut out by its
     address and its width (`Placed.share`).
-/
import Minicore.Proofs.Assembly.SecondPass

namespace Minicore

namespace Layout

open SourceLine

/-! ## Placed lines -/

section PlacedLines

variable {map : AddressMap} {i pc : Nat} {before after : List SourceLine} {l : SourceLine}

/-- The words of placed lines stay within 16 bits. -/
theorem Placed.room {ls : List SourceLine} (h : Placed i pc ls) : Along HasRoom pc ls := by
  intro before l after hls hs
  rw [hls] at h
  have hfit := h.at_line.2.2.2 hs
  have hd : imageDepth = 256 := rfl
  have hm : maxWord = 65535 := rfl
  omega

/-- A placed statement stands at the words before it. -/
theorem Placed.standsAt (h : Placed i pc (before ++ l :: after)) (hs : l.statement ≠ none) :
    l.StandsAt (pc + words before) := by
  have hroom := h.room before l after rfl hs
  obtain ⟨s, hs⟩ := Option.ne_none_iff_exists'.1 hs
  rw [standsAt_iff (by omega), h.at_line.2.2.1, hs]
  rfl

/-- All that there can be against a placed line is an unknown symbol. -/
theorem Placed.unresolved {f : Fault} (h : Placed i pc (before ++ l :: after))
    (hf : Objection map (pc + words before) l f) :
    ∃ op x, l.statement = some (.code op (some (.symbol x))) ∧ map.address? x = none ∧
      f = ⟨.unresolvedSymbol x, some ⟨l.index + 1, l.text⟩⟩ := by
  cases hf with
  | moved hs hnot => exact absurd (h.standsAt (by simp [hs])) hnot
  | unresolved hs _ hx => exact ⟨_, _, hs, hx, rfl⟩

end PlacedLines

/-! ## The second walk -/

/-- **Pass two**: on placed lines the only fault is a symbol that the map does not have, told with its
    line; otherwise the records are those of the lines in order, and there is nothing against a line. -/
theorem encodeLines_spec (map : AddressMap) {i pc : Nat} {ls : List SourceLine}
    (h : Placed i pc ls) :
    (∃ l ∈ ls, ∃ op name, l.statement = some (.code op (some (.symbol name))) ∧
      map.address? name = none ∧ encodeLines map (UInt16.ofNat pc) ls =
        .error ⟨.unresolvedSymbol name, some ⟨l.index + 1, l.text⟩⟩) ∨
    encodeLines map (UInt16.ofNat pc) ls = .ok (ls.flatMap fun l => l.produced map) ∧
      Along (Accepted map) pc ls := by
  rcases encodeLines_run map h.room with ⟨before, l, after, f, rfl, -, hf, herror⟩ | ⟨hall, hok⟩
  · obtain ⟨op, x, hs, hx, rfl⟩ := h.unresolved hf
    exact .inl ⟨l, by simp, op, x, hs, hx, herror⟩
  · exact .inr ⟨hok, hall⟩

/-! ## Which records are whose -/

section Shares

variable {map : AddressMap} {i pc : Nat} {rs : List Record}

/-- Once everything is encoded, a line has one record per word: at the addresses from its own on, with
    the trimmed line, and with the words of its statement. -/
theorem Placed.produced_spec {before after : List SourceLine} {line : SourceLine}
    (h : Placed i pc (before ++ line :: after))
    (hok : encodeLines map (UInt16.ofNat pc) (before ++ line :: after) = .ok rs) :
    (line.produced map).map (fun r => r.address.toNat) =
        List.range' (pc + words before) line.width ∧
      (line.produced map).map Record.comment = List.replicate line.width line.comment ∧
      (line.produced map).map Record.word = line.statement.toList.flatMap (·.wordsIn map) := by
  rcases encodeLines_spec map h with ⟨_, _, _, _, _, _, herr⟩ | ⟨-, hall⟩
  · rw [herr] at hok; cases hok
  · exact (hall before line after rfl).produced (h.room before line after rfl)

/-- A line has as many records as words. -/
theorem Placed.length_produced {ls : List SourceLine} (h : Placed i pc ls)
    (hok : encodeLines map (UInt16.ofNat pc) ls = .ok rs) {l : SourceLine} (hl : l ∈ ls) :
    (l.produced map).length = l.width := by
  obtain ⟨before, after, rfl⟩ := List.append_of_mem hl
  have := congrArg List.length (h.produced_spec hok).1
  rwa [List.length_map, List.length_range'] at this

theorem length_flatMap_produced {ls : List SourceLine}
    (h : ∀ l ∈ ls, (l.produced map).length = l.width) :
    (ls.flatMap fun l => l.produced map).length = words ls := by
  induction ls with
  | nil => rfl
  | cons l ls ih =>
    rw [List.flatMap_cons, List.length_append, words_cons, h l List.mem_cons_self,
      ih fun l' hl' => h l' (List.mem_cons_of_mem _ hl')]

/-- The records are those of the lines, one line behind another. -/
theorem Placed.eq_flatMap {ls : List SourceLine} (h : Placed i pc ls)
    (hok : encodeLines map (UInt16.ofNat pc) ls = .ok rs) :
    rs = ls.flatMap fun l => l.produced map := by
  rcases encodeLines_spec map h with ⟨_, _, _, _, _, _, herr⟩ | ⟨hrs, -⟩
  · rw [herr] at hok; cases hok
  · rw [hrs, Except.ok.injEq] at hok
    exact hok.symm

/-- The records of a stretch of lines stand at consecutive addresses, from the words before them on. -/
theorem Placed.addresses_of_append {before after : List SourceLine}
    (h : Placed i pc (before ++ after))
    (hok : encodeLines map (UInt16.ofNat pc) (before ++ after) = .ok rs) :
    (after.flatMap fun l => l.produced map).map (fun r => r.address.toNat) =
      List.range' (pc + words before) (words after) := by
  rcases encodeLines_spec map h with ⟨_, _, _, _, _, _, herr⟩ | ⟨-, hall⟩
  · rw [herr] at hok; cases hok
  · exact addresses_of_accepted hall.drop h.room.drop

/-- **The records stand at consecutive addresses**, one per word. -/
theorem Placed.addresses {ls : List SourceLine} (h : Placed i pc ls)
    (hok : encodeLines map (UInt16.ofNat pc) ls = .ok rs) :
    rs.map (fun r => r.address.toNat) = List.range' pc (words ls) := by
  have hall : Placed i pc ([] ++ ls) := h
  rw [h.eq_flatMap hok]
  exact hall.addresses_of_append hok

/-- **Shares**: cutting the records at the words before a line, and taking as many as the line has
    words, gives the records of that line. -/
theorem Placed.share {before after : List SourceLine} {line : SourceLine}
    (h : Placed i pc (before ++ line :: after))
    (hok : encodeLines map (UInt16.ofNat pc) (before ++ line :: after) = .ok rs) :
    (rs.drop (words before)).take line.width = line.produced map := by
  have hlen := fun l hl => h.length_produced hok (l := l) hl
  have hbefore : (before.flatMap fun l => l.produced map).length = words before :=
    length_flatMap_produced fun l hl => hlen l (List.mem_append_left _ hl)
  have hline : (line.produced map).length = line.width := hlen line (by simp)
  rw [h.eq_flatMap hok, List.flatMap_append, List.flatMap_cons, ← hbefore, List.drop_left,
    ← hline, List.take_left]

end Shares

/-! ## Layouts of a text -/

/-- An assembled text was laid out and encoded. -/
theorem layout_of_assemble {t : Text} {asm : Assembly} (h : assemble t = .ok asm) :
    ofText t = .ok asm.layout ∧ asm.layout.encode = .ok asm.records := by
  simp only [assemble] at h
  split at h
  · cases h
  · rename_i l hl
    split at h
    · cases h
    · rename_i records hr
      rw [Except.ok.injEq] at h
      subst h
      exact ⟨hl, hr⟩

/-- **The passes agree.**  For every text that the first pass lays out: its lines are read as they are
    written, each statement stands at the number of words before it, with all its words inside the
    image; the second pass has no fault but a
    symbol that no line defines, told with its line; and the records it returns are one per word, at the
    addresses `0, 1, …` up to the size, where each statement owns the stretch from its address on, as
    long as it is wide, with the trimmed line as comment and, for a declaration, the declared values. -/
theorem encode_agrees_with_ofText {t : Text} {l : Layout} (h : ofText t = .ok l) :
    l.lines.map SourceLine.text = t.lines ∧
    (∀ line ∈ l.lines, Statement.read line.text = .ok line.statement) ∧
    l.size ≤ imageDepth ∧
    (∀ before line after s, l.lines = before ++ line :: after → line.statement = some s →
      ∃ a, line.address = some a ∧ a.toNat = words before ∧ a.toNat + s.width ≤ l.size) ∧
    (∀ f, l.encode = .error f → ∃ line ∈ l.lines, ∃ op name,
      line.statement = some (.code op (some (.symbol name))) ∧ l.map.address? name = none ∧
        f = ⟨.unresolvedSymbol name, some ⟨line.index + 1, line.text⟩⟩) ∧
    ∀ records, l.encode = .ok records →
      records.map (fun r => r.address.toNat) = List.range l.size ∧
      ∀ line ∈ l.lines, ∀ s a, line.statement = some s → line.address = some a →
        let own := (records.drop a.toNat).take s.width
        own.map (fun r => r.address.toNat) = List.range' a.toNat s.width ∧
        own.map Record.comment = List.replicate s.width line.text.trim ∧
        ∀ name values, s = .data name values → own.map Record.word = values.map Word.data := by
  have hp := placed_of_ofText h
  have hsize := size_of_ofText h
  obtain ⟨htexts, hreads⟩ := lines_of_ofText h
  refine ⟨htexts, hreads, size_le_of_ofText h, ?_, ?_, ?_⟩
  · intro before line after s hl hs
    obtain ⟨ha, hnat, hfit⟩ := address_of_ofText h hl hs
    exact ⟨_, ha, hnat, by rw [hnat]; exact hfit⟩
  · intro f hf
    rcases encodeLines_spec l.map hp with ⟨line, hl, op, name, hs, ha, herr⟩ | ⟨hok, -⟩
    · have hf' : encodeLines l.map (UInt16.ofNat 0) l.lines = .error f := hf
      rw [herr, Except.error.injEq] at hf'
      exact ⟨line, hl, op, name, hs, ha, hf'.symm⟩
    · have hf' : encodeLines l.map (UInt16.ofNat 0) l.lines = .error f := hf
      rw [hok] at hf'
      cases hf'
  · intro records hok
    have hok' : encodeLines l.map (UInt16.ofNat 0) l.lines = .ok records := hok
    refine ⟨?_, fun line hl s a hs ha => ?_⟩
    · rw [hp.addresses hok', hsize, List.range_eq_range']
    -- a share is read off the decomposition of the lines at its line
    · obtain ⟨before, after, hlines⟩ := List.append_of_mem hl
      obtain ⟨ha', hnat, -⟩ := address_of_ofText h hlines hs
      obtain rfl : a = UInt16.ofNat (words before) := Option.some.inj (ha.symm.trans ha')
      rw [hlines] at hp hok'
      obtain ⟨hadr, hcom, hword⟩ := hp.produced_spec hok'
      have hshare := hp.share hok'
      rw [width_of_statement hs] at hshare hadr hcom
      rw [Nat.zero_add] at hadr
      simp only [hnat, hshare]
      refine ⟨hadr, hcom, fun name values hdata => ?_⟩
      rw [hword, hs, hdata]
      exact List.append_nil _

/-- A forward reference, a declaration of two words and one of none, a line that is no statement and a
    label behind the last word. -/
def mixedLines : Text := "B end\nt DCB 1, 2\ne DCB\nno line\nMOV R1, #t\nend\n".toList

theorem encode_agrees_on_mixedLines :
    ∃ asm, assemble mixedLines = .ok asm ∧
      asm.records.map (fun r => r.address.toNat) = List.range 4 := by
  have hsize : (assemble mixedLines).map (fun asm => asm.layout.size) = .ok 4 := rfl
  cases h : assemble mixedLines with
  | error e => rw [h] at hsize; cases hsize
  | ok asm =>
    have hfour : asm.layout.size = 4 := by rw [h] at hsize; exact Except.ok.inj hsize
    obtain ⟨hlay, hok⟩ := layout_of_assemble h
    refine ⟨asm, rfl, ?_⟩
    rw [((encode_agrees_with_ofText hlay).2.2.2.2.2 _ hok).1, hfour]

end Layout

end Minicore
