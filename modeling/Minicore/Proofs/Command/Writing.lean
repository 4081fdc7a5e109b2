/-
  WRITING files — what a write changes, and what it does not.

  Problem: a run writes files under paths that were made from one another.  Whether the second write
  still goes where it would have gone, and what it leaves of the first, depends on where the two paths
  lead.

  1. **One write** — `Written fs fs' l n c` is all that a write of `c` to the location `l` does, object by
     object.  The file that is written has the number `n`: it was there, or it is new and the directory
     lists it under the name that was missing.

  2. **Paths** — after a write every path leads where it led, except that a path to the missing name now
     leads to the new file (`Location.after`).  A walk is structural in its parts and in the links that
     are left, so two inductions carry this from one step to all paths (`location?_of_written`).

  3. **Contents** — the text is under every path that leads to the location, and all other paths show
     what they showed (`Writable.write`).  Whether two paths lead to one location is NOT seen from their
     parts: dots, links and a second name all lead there.
-/
import Minicore.Command.FileSystem

namespace Minicore

/-- Where a path leads that led to `q`, when the file at `l` has been written and has the number `n`. -/
def Location.after (q l : Location) (n : Nat) : Location := if q = l then .found n else q

namespace FileSystem

/-- A file can be written where the path leads, whatever the text. -/
def Writable (fs : FileSystem) (path : Text) : Prop := ∀ t, ∃ fs', fs.write path t = some fs'

/-- There is a file, or a directory that lacks the name. -/
def Admits (fs : FileSystem) : Location → Prop
  | .found n => ∃ c, fs.object? n = some (.file c)
  | .missing d name => ∃ parent entries,
      fs.object? d = some (.directory parent entries) ∧ entries.find? name = none

/-- What a write of `c` to the location `l` does. -/
structure Written (fs fs' : FileSystem) (l : Location) (n : Nat) (c : Content) : Prop where
  root : fs'.root = fs.root
  current : fs'.current = fs.current
  content : fs'.object? n = some (.file c)
  number : ∀ {m}, l = .found m → m = n
  file : ∀ {m d}, fs.object? m = some (.file d) →
    fs'.object? m = some (.file (if l = .found m then c else d))
  link : ∀ {m target}, fs'.object? m = some (.link target) ↔ fs.object? m = some (.link target)
  directory : ∀ {m parent entries}, fs.object? m = some (.directory parent entries) →
    ∃ entries' : OrderedMap Nat, fs'.object? m = some (.directory parent entries') ∧
      ∀ name, entries'.find? name = (entries.find? name).or (if l = .missing m name then some n else none)

variable {fs fs' : FileSystem} {path : Text} {l q : Location} {n m : Nat} {c : Content}
  {follow follow' : Nat → List Text → Option Location} {ps : List Text}

/-! ## One write -/

/-- The content of a file is replaced. -/
theorem written_of_found {d : Content} (hn : fs.object? n = some (.file d)) (c : Content) :
    Written fs (fs.replace n (.file c)) (.found n) n c where
  root := rfl
  current := rfl
  content := by rw [object?_replace hn, if_pos rfl]
  number h := (Location.found.inj h).symm
  file {m d'} hm := by
    rw [object?_replace hn]
    by_cases hnm : n = m
    · rw [if_pos hnm, if_pos (congrArg _ hnm)]
    · rw [if_neg hnm, if_neg fun h => hnm (Location.found.inj h), hm]
  link {m target} := by
    rw [object?_replace hn]
    by_cases hnm : n = m
    · subst hnm
      rw [if_pos rfl, hn]
      exact ⟨nofun, nofun⟩
    · rw [if_neg hnm]
  directory {m parent entries} hm := by
    have hnm : n ≠ m := by
      rintro rfl
      cases hn.symm.trans hm
    refine ⟨entries, by rw [object?_replace hn, if_neg hnm, hm], fun name => ?_⟩
    rw [if_neg nofun, Option.or_none]

/-- A file is made under a name that the directory lacks. -/
theorem written_of_missing {d parent : Nat} {entries : OrderedMap Nat} {name : Text}
    (hd : fs.object? d = some (.directory parent entries)) (hname : entries.find? name = none) (c : Content) :
    ∃ fs', fs.append d name (.file c) = some fs' ∧
      Written fs fs' (.missing d name) fs.objects.length c := by
  obtain ⟨fs', happend, hroot, hcurrent, hobject⟩ := object?_append hd name (.file c)
  have hold : ∀ {m o}, fs.object? m = some o → m ≠ fs.objects.length := fun h =>
    Nat.ne_of_lt (List.getElem?_eq_some_iff.1 h).1
  refine ⟨fs', happend, ?_⟩
  constructor
  case root => exact hroot
  case current => exact hcurrent
  case content => rw [hobject, if_pos rfl]
  case number => exact nofun
  case file =>
    intro m d' hm
    have hdm : d ≠ m := by
      rintro rfl
      cases hd.symm.trans hm
    rw [hobject, if_neg (hold hm), if_neg hdm, if_neg nofun, hm]
  case link =>
    intro m target
    rw [hobject]
    by_cases hm : m = fs.objects.length
    · have hnone : fs.object? m = none := List.getElem?_eq_none (Nat.le_of_eq hm.symm)
      rw [if_pos hm, hnone]
      exact ⟨nofun, nofun⟩
    · rw [if_neg hm]
      by_cases hdm : d = m
      · subst hdm
        rw [if_pos rfl, hd]
        exact ⟨nofun, nofun⟩
      · rw [if_neg hdm]
  case directory =>
    intro m parent' entries' hm
    rw [hobject, if_neg (hold hm)]
    by_cases hdm : d = m
    · -- this is the directory: the name is its only new one
      subst hdm
      cases hd.symm.trans hm
      refine ⟨_, if_pos rfl, fun other => ?_⟩
      rw [OrderedMap.find?_insert]
      by_cases hother : name = other
      · rw [if_pos hother, if_pos (congrArg _ hother), ← hother, hname, Option.none_or]
      · rw [if_neg hother, if_neg fun h => hother (Location.missing.inj h).2, Option.or_none]
    · refine ⟨entries', by rw [if_neg hdm, hm], fun other => ?_⟩
      rw [if_neg fun h => hdm (Location.missing.inj h).1, Option.or_none]

/-- **One write**, wherever a location admits it. -/
theorem Admits.put (h : fs.Admits l) (c : Content) :
    ∃ fs' n, fs.put c l = some fs' ∧ Written fs fs' l n c := by
  cases l with
  | found n =>
    obtain ⟨d, hn⟩ := h
    exact ⟨_, n, by rw [FileSystem.put, hn], written_of_found hn c⟩
  | missing d name =>
    obtain ⟨parent, entries, hd, hname⟩ := h
    obtain ⟨fs', happend, hwritten⟩ := written_of_missing hd hname c
    exact ⟨fs', _, happend, hwritten⟩

/-- What admitted a file admits one still. -/
theorem Written.admits (h : Written fs fs' l n c) (hq : fs.Admits q) : fs'.Admits (q.after l n) := by
  unfold Location.after
  split
  · exact ⟨c, h.content⟩
  · rename_i hql
    cases q with
    | found m =>
      obtain ⟨d, hm⟩ := hq
      exact ⟨_, h.file hm⟩
    | missing m name =>
      obtain ⟨parent, entries, hm, hname⟩ := hq
      obtain ⟨entries', hm', hentries⟩ := h.directory hm
      exact ⟨parent, entries', hm', by rw [hentries, hname, if_neg (Ne.symm hql), Option.or_none]⟩

/-- The content is at the location; what is elsewhere stays. -/
theorem Written.content? (h : Written fs fs' l n c) (hq : fs.Admits q) :
    fs'.content? (q.after l n) = if q = l then some c else fs.content? q := by
  unfold Location.after
  split
  · rw [FileSystem.content?, h.content]
  · rename_i hql
    cases q with
    | found m =>
      obtain ⟨d, hm⟩ := hq
      rw [FileSystem.content?, FileSystem.content?, h.file hm, hm, if_neg (Ne.symm hql)]
    | missing m name => rfl

/-! ## Paths after a write -/

theorem Written.start? (h : Written fs fs' l n c) (m : Nat) (path : Text) :
    fs'.start? m path = fs.start? m path := by
  cases path with
  | nil => rfl
  | cons x path => rw [FileSystem.start?, FileSystem.start?, h.root]

/-- What stands for an object is not missing. -/
theorem ne_missing_of_reach? {next : Nat} {s : Step} (h : fs.reach? m next = some s) : s ≠ .missing := by
  rintro rfl
  unfold reach? at h
  split at h
  · obtain ⟨start, -, hlink⟩ := Option.map_eq_some_iff.1 h
    cases hlink
  · cases h

/-- A write neither makes links nor changes them. -/
theorem Written.reach? (h : Written fs fs' l n c) (m next : Nat) : fs'.reach? m next = fs.reach? m next := by
  have hobject : ∀ {fs : FileSystem}, (∀ target, fs.object? next ≠ some (.link target)) →
      fs.reach? m next = some (.object next) := by
    intro fs hlink
    unfold FileSystem.reach?
    split
    · rename_i target htarget
      exact absurd htarget (hlink target)
    · rfl
  by_cases hlink : ∃ target, fs.object? next = some (.link target)
  · obtain ⟨target, hlink⟩ := hlink
    rw [FileSystem.reach?, FileSystem.reach?, h.link.2 hlink, hlink]
    simp only [h.start?]
  · have hold : ∀ target, fs.object? next ≠ some (.link target) := fun target ht => hlink ⟨target, ht⟩
    rw [hobject hold, hobject fun target ht => hold target (h.link.1 ht)]

/-- One step after a write: only to the name that was missing does it lead elsewhere. -/
theorem Written.step? (h : Written fs fs' l n c) {part : Text} {s : Step}
    (hs : fs.step? m part = some s) :
    fs'.step? m part = some (if s = .missing ∧ l = .missing m part then .object n else s) := by
  unfold FileSystem.step? at hs ⊢
  split at hs
  · rename_i parent entries hm
    obtain ⟨entries', hm', hentries⟩ := h.directory hm
    simp only [hm', hentries, h.reach?]
    split at hs
    · rename_i hstay
      cases hs
      rw [if_pos hstay, if_neg fun h => nomatch h.1]
    · rename_i hstay
      rw [if_neg hstay]
      split at hs
      · rename_i hup
        cases hs
        rw [if_pos hup, if_neg fun h => nomatch h.1]
      · rename_i hup
        rw [if_neg hup]
        split at hs
        · -- the name is missing; it is there now if it is the one that was written
          rename_i hfind
          cases hs
          rw [hfind, Option.none_or]
          by_cases hl : l = .missing m part
          · rw [if_pos hl, if_pos ⟨rfl, hl⟩]
            exact (h.reach? m n).symm.trans (by simp only [FileSystem.reach?, h.content])
          · rw [if_neg hl, if_neg fun h => hl h.2]
        · rename_i next hfind
          rw [hfind, Option.some_or, if_neg fun h => ne_missing_of_reach? hs h.1]
          exact hs
  · cases hs

/-- One walk after a write, if behind its links it is so. -/
theorem walkWith_of_written (h : Written fs fs' l n c)
    (hfollow : ∀ {start ps q}, follow start ps = some q → follow' start ps = some (q.after l n))
    (hq : fs.walkWith follow m ps = some q) : fs'.walkWith follow' m ps = some (q.after l n) := by
  induction ps generalizing m with
  | nil =>
    cases hq
    rw [walkWith, Location.after]
    split
    · rename_i hl
      rw [h.number hl.symm]
    · rfl
  | cons part rest ih =>
    rw [walkWith] at hq ⊢
    cases hs : fs.step? m part with
    | none =>
      rw [hs] at hq
      cases hq
    | some s =>
      rw [hs] at hq
      rw [h.step? hs]
      cases s with
      | object next =>
        rw [if_neg fun h => nomatch h.1]
        exact ih hq
      | link start target =>
        rw [if_neg fun h => nomatch h.1]
        exact hfollow hq
      | missing =>
        simp only [Option.ite_none_right_eq_some, Option.some.injEq] at hq
        obtain ⟨hrest, rfl⟩ := hq
        obtain rfl := List.isEmpty_iff.1 hrest
        by_cases hl : l = .missing m part
        · rw [if_pos ⟨rfl, hl⟩, Location.after, if_pos hl.symm]
          rfl
        · rw [if_neg fun h => hl h.2, Location.after, if_neg (Ne.symm hl)]
          rfl

theorem walk_of_written (h : Written fs fs' l n c) (links : Nat) {ps : List Text}
    (hq : fs.walk links m ps = some q) : fs'.walk links m ps = some (q.after l n) := by
  induction links generalizing m ps q with
  | zero => exact walkWith_of_written h (fun hnone => by cases hnone) hq
  | succ links ih => exact walkWith_of_written h ih hq

/-- **Paths after a write** lead where they led, and to the new file if they led to its missing name. -/
theorem location?_of_written (h : Written fs fs' l n c) (hq : fs.location? path = some q) :
    fs'.location? path = some (q.after l n) := by
  obtain ⟨start, hstart, hq⟩ := Option.bind_eq_some_iff.1 hq
  rw [location?, h.current, h.start?, hstart]
  exact walk_of_written h linkLimit hq

/-! ## Where a file can be written -/

/-- One step misses a name only where a directory lacks it. -/
theorem admits_of_step? {part : Text} (h : fs.step? m part = some .missing) :
    fs.Admits (.missing m part) := by
  unfold FileSystem.step? at h
  split at h
  · rename_i parent entries hm
    split at h
    · cases h
    · split at h
      · cases h
      · split at h
        · rename_i hfind
          exact ⟨parent, entries, hm, hfind⟩
        · exact absurd rfl (ne_missing_of_reach? h)
  · cases h

/-- So does a walk, if behind its links it is so. -/
theorem admits_of_walkWith {d : Nat} {name : Text}
    (hfollow : ∀ {start ps}, follow start ps = some (.missing d name) → fs.Admits (.missing d name))
    (hq : fs.walkWith follow m ps = some (.missing d name)) : fs.Admits (.missing d name) := by
  induction ps generalizing m with
  | nil => cases hq
  | cons part rest ih =>
    rw [walkWith] at hq
    split at hq
    · exact ih hq
    · exact hfollow hq
    · rename_i hstep
      simp only [Option.ite_none_right_eq_some, Option.some.injEq, Location.missing.injEq] at hq
      obtain ⟨-, rfl, rfl⟩ := hq
      exact admits_of_step? hstep
    · cases hq

theorem admits_of_walk {d : Nat} {name : Text} (links : Nat) {ps : List Text}
    (hq : fs.walk links m ps = some (.missing d name)) : fs.Admits (.missing d name) := by
  induction links generalizing m ps with
  | zero => exact admits_of_walkWith (fun hnone => by cases hnone) hq
  | succ links ih => exact admits_of_walkWith ih hq

/-- **Where a file can be written**: there is one, or only its name is missing. -/
theorem writable_iff : fs.Writable path ↔ ∃ l, fs.location? path = some l ∧ fs.Admits l := by
  constructor
  · intro h
    obtain ⟨fs', hwrite⟩ := h []
    obtain ⟨l, hl, hput⟩ := Option.bind_eq_some_iff.1 hwrite
    refine ⟨l, hl, ?_⟩
    cases l with
    | found n =>
      simp only [FileSystem.put] at hput
      split at hput
      · rename_i c hn
        exact ⟨c, hn⟩
      · cases hput
    | missing d name =>
      obtain ⟨start, -, hwalk⟩ := Option.bind_eq_some_iff.1 hl
      exact admits_of_walk linkLimit hwalk
  · rintro ⟨l, hl, hadmits⟩ t
    obtain ⟨fs', n, hput, -⟩ := hadmits.put (.text t)
    exact ⟨fs', by rw [FileSystem.write, hl, Option.bind_some, hput]⟩

/-- **A write that works** puts the text under every path that leads to the location.  The other paths
    under which files can be written show what they showed, and files can be written there still. -/
theorem Writable.write (h : fs.Writable path) (t : Text) :
    ∃ fs', fs.write path t = some fs' ∧ ∀ other, fs.Writable other →
      fs'.Writable other ∧
      fs'.at? other = if fs.location? path = fs.location? other then some (.text t) else fs.at? other := by
  obtain ⟨l, hl, hadmits⟩ := writable_iff.1 h
  obtain ⟨fs', n, hput, hwritten⟩ := hadmits.put (.text t)
  refine ⟨fs', by rw [FileSystem.write, hl, Option.bind_some, hput], fun other hother => ?_⟩
  obtain ⟨q, hq, hqadmits⟩ := writable_iff.1 hother
  have hq' := location?_of_written hwritten hq
  refine ⟨writable_iff.2 ⟨_, hq', hwritten.admits hqadmits⟩, ?_⟩
  rw [at?, hq', Option.bind_some, hwritten.content? hqadmits, at?, hq, hl, Option.bind_some]
  simp only [Option.some.injEq, eq_comm]

end FileSystem

end Minicore
