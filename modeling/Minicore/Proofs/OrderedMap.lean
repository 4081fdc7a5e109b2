/-
  MAPS FILLED IN ORDER — what a map holds after a run of inserts.

  Problem: the address map and the declaration streams are filled one name at a time, and a name may
  come again.  What is asked of the result is always one of two things: WHICH names, in which order,
  and WHAT stands under a name.

  1. **Names** — every name once, in the order in which the names first came (`keys_foldl`): this holds
     of any operation that keeps the place of a known name and puts a new one at the end.

  2. **Values** — the value of the LAST insert of the name (`find?_ofList_eq_some_iff`).

  3. **Renaming** — different names that stay different change neither places nor values
     (`entries_ofList_rename`).
-/
import Minicore.OrderedMap
import Mathlib.Data.List.Basic
import Mathlib.Data.List.Induction
import Mathlib.Data.Set.Function

namespace Minicore

namespace OrderedMap

variable {α β γ : Type}

/-! ## Names -/

/-- One more name comes at the end, unless it is there. -/
theorem eraseDups_concat (names : List Text) (a : Text) :
    (names ++ [a]).eraseDups = if a ∈ names then names.eraseDups else names.eraseDups ++ [a] := by
  rw [List.eraseDups_append]
  by_cases ha : a ∈ names
  · simp [List.removeAll, ha]
  · simp [List.removeAll, ha, List.eraseDups_cons]

/-- First come, first placed: an operation that appends new names and moves none leaves the names of
    its arguments, without repetitions. -/
theorem keys_foldl {f : OrderedMap β → α → OrderedMap β} {name : α → Text}
    (hf : ∀ m a, (f m a).keys = if name a ∈ m.keys then m.keys else m.keys ++ [name a])
    (as : List α) : (as.foldl f empty).keys = (as.map name).eraseDups := by
  induction as using List.reverseRecOn with
  | nil => rfl
  | append_singleton as a ih =>
    rw [List.foldl_append, List.foldl_cons, List.foldl_nil, hf, ih, List.map_append, List.map_singleton,
      eraseDups_concat]
    simp only [List.mem_eraseDups]

theorem keys_ofList (pairs : List (Text × β)) :
    (ofList pairs).keys = (pairs.map Prod.fst).eraseDups :=
  keys_foldl (fun m e => keys_insert m e.1 e.2) pairs

/-- An insert makes the map longer exactly when the name is new. -/
theorem size_insert (m : OrderedMap β) (name : Text) (v : β) :
    (m.insert name v).size = m.size + if name ∈ m.keys then 0 else 1 := by
  have hsize : ∀ m : OrderedMap β, m.size = m.keys.length := fun m => (List.length_map _).symm
  rw [hsize, hsize, keys_insert]
  split
  · rfl
  · rw [List.length_append]
    rfl

/-- A list without its repetitions has none. -/
theorem nodup_eraseDups (names : List Text) : names.eraseDups.Nodup := by
  induction names using List.reverseRecOn with
  | nil => exact List.nodup_nil
  | append_singleton names a ih =>
    rw [eraseDups_concat]
    split
    · exact ih
    · rename_i ha
      rw [List.nodup_append]
      refine ⟨ih, by simp, fun b hb c hc hbc => ?_⟩
      rw [List.mem_singleton.1 hc] at hbc
      exact ha (hbc ▸ List.mem_eraseDups.1 hb)

/-- Different names stay different, so the same ones come again. -/
theorem eraseDups_map {g : Text → Text} (hg : Function.Injective g) (names : List Text) :
    (names.map g).eraseDups = names.eraseDups.map g := by
  induction names using List.reverseRecOn with
  | nil => rfl
  | append_singleton names a ih =>
    rw [List.map_append, List.map_singleton, eraseDups_concat, eraseDups_concat, ih]
    simp only [List.mem_map_of_injective hg]
    split <;> simp

/-- A name has a value exactly when it is one of the names. -/
theorem find?_eq_none_iff (m : OrderedMap β) (x : Text) : m.find? x = none ↔ x ∉ m.keys := by
  obtain ⟨es⟩ := m
  simp only [find?, keys]
  induction es with
  | nil => simp [lookup]
  | cons e es ih =>
    obtain ⟨k, w⟩ := e
    by_cases hk : k = x
    · simp [lookup, hk]
    · simp only [lookup, if_neg hk, ih, List.map_cons, List.mem_cons, not_or]
      exact ⟨fun h => ⟨Ne.symm hk, h⟩, fun h => h.2⟩

/-! ## Values -/

/-- A value that is found is that of an entry. -/
theorem mem_entries_of_find? {m : OrderedMap β} {x : Text} {v : β} (h : m.find? x = some v) :
    (x, v) ∈ m.entries := by
  obtain ⟨es⟩ := m
  change lookup x es = some v at h
  show (x, v) ∈ es
  induction es with
  | nil => cases h
  | cons e es ih =>
    obtain ⟨k, w⟩ := e
    unfold lookup at h
    split at h
    · rename_i hk
      obtain rfl := Option.some.inj h
      rw [hk]
      exact List.mem_cons_self
    · exact List.mem_cons_of_mem _ (ih h)

/-- With every name once, the value of an entry is found. -/
theorem find?_of_mem_entries {m : OrderedMap β} {x : Text} {v : β} (hn : m.keys.Nodup)
    (h : (x, v) ∈ m.entries) : m.find? x = some v := by
  obtain ⟨es⟩ := m
  change (es.map Prod.fst).Nodup at hn
  change (x, v) ∈ es at h
  show lookup x es = some v
  induction es with
  | nil => cases h
  | cons e es ih =>
    obtain ⟨k, w⟩ := e
    rw [List.map_cons, List.nodup_cons] at hn
    unfold lookup
    rcases List.mem_cons.1 h with heq | h
    · obtain ⟨rfl, rfl⟩ := Prod.mk.inj heq
      rw [if_pos rfl]
    · have hne : k ≠ x := by
        intro hk
        rw [hk] at hn
        exact hn.1 (List.mem_map.2 ⟨_, h, rfl⟩)
      rw [if_neg hne]
      exact ih hn.2 h

/-- The value of a name is that of its last pair. -/
theorem find?_ofList (pairs : List (Text × β)) (x : Text) :
    (ofList pairs).find? x = (pairs.reverse.find? fun e => e.1 == x).map Prod.snd := by
  unfold ofList
  induction pairs using List.reverseRecOn with
  | nil => rfl
  | append_singleton pairs e ih =>
    rw [List.foldl_append, List.foldl_cons, List.foldl_nil, find?_insert, ih, List.reverse_append]
    by_cases he : e.1 = x <;> simp [he]

/-- **The last insert counts**: a name has the value `v` exactly when it gets `v` and is not among the
    pairs behind. -/
theorem find?_ofList_eq_some_iff {pairs : List (Text × β)} {x : Text} {v : β} :
    (ofList pairs).find? x = some v ↔
      ∃ before after, pairs = before ++ (x, v) :: after ∧ x ∉ after.map Prod.fst := by
  rw [find?_ofList, Option.map_eq_some_iff]
  constructor
  · rintro ⟨⟨k, w⟩, hfind, rfl⟩
    obtain ⟨hk, as, bs, hrev, has⟩ := List.find?_eq_some_iff_append.1 hfind
    obtain rfl : k = x := by simpa using hk
    refine ⟨bs.reverse, as.reverse, ?_, fun hmem => ?_⟩
    · have := congrArg List.reverse hrev
      simpa using this
    · obtain ⟨e, he, hek⟩ := List.mem_map.1 hmem
      have := has e (List.mem_reverse.1 he)
      simp [hek] at this
  · rintro ⟨before, after, rfl, hafter⟩
    refine ⟨(x, v), ?_, rfl⟩
    rw [List.find?_eq_some_iff_append]
    refine ⟨by simp, after.reverse, before.reverse, by simp, fun e he => ?_⟩
    have : e.1 ≠ x := fun hex => hafter (List.mem_map.2 ⟨e, List.mem_reverse.1 he, hex⟩)
    simpa using this

/-! ## Entries -/

/-- An insert replaces the value of the first entry with that name, or puts an entry at the end. -/
theorem entries_insert (m : OrderedMap β) (name : Text) (v : β) :
    (∃ before w after, m.entries = before ++ (name, w) :: after ∧ name ∉ before.map Prod.fst ∧
      m.insert name v = ⟨before ++ (name, v) :: after⟩) ∨
    (name ∉ m.keys ∧ m.insert name v = ⟨m.entries ++ [(name, v)]⟩) := by
  obtain ⟨es⟩ := m
  simp only [insert, keys, mk.injEq]
  induction es with
  | nil => exact .inr ⟨List.not_mem_nil, rfl⟩
  | cons e es ih =>
    obtain ⟨k, w⟩ := e
    by_cases hk : k = name
    · subst hk
      exact .inl ⟨[], w, es, rfl, List.not_mem_nil, by rw [put, if_pos rfl]; rfl⟩
    · rw [put, if_neg hk]
      rcases ih with ⟨before, w', after, rfl, hbefore, hput⟩ | ⟨hnot, hput⟩
      · refine .inl ⟨(k, w) :: before, w', after, rfl, ?_, by rw [hput]; rfl⟩
        rw [List.map_cons, List.mem_cons, not_or]
        exact ⟨Ne.symm hk, hbefore⟩
      · refine .inr ⟨?_, by rw [hput]; rfl⟩
        rw [List.map_cons, List.mem_cons, not_or]
        exact ⟨Ne.symm hk, hnot⟩

/-- An insert of a new name puts an entry at the end; an old name is left alone. -/
theorem entries_insertNew (m : OrderedMap β) (name : Text) (v : β) :
    (name ∈ m.keys ∧ m.insertNew name v = m) ∨
      (name ∉ m.keys ∧ m.insertNew name v = ⟨m.entries ++ [(name, v)]⟩) := by
  obtain ⟨es⟩ := m
  simp only [insertNew, keys, mk.injEq]
  induction es with
  | nil => exact .inr ⟨List.not_mem_nil, rfl⟩
  | cons e es ih =>
    obtain ⟨k, w⟩ := e
    by_cases hk : k = name
    · subst hk
      exact .inl ⟨List.mem_cons_self, by rw [putNew, if_pos rfl]⟩
    · rw [putNew, if_neg hk]
      rcases ih with ⟨hmem, hput⟩ | ⟨hnot, hput⟩
      · exact .inl ⟨List.mem_cons_of_mem _ hmem, by rw [hput]⟩
      · refine .inr ⟨?_, by rw [hput]; rfl⟩
        rw [List.map_cons, List.mem_cons, not_or]
        exact ⟨Ne.symm hk, hnot⟩

/-! ## Other names -/

/-- The names of the entries are names of the pairs. -/
theorem mem_of_mem_entries {pairs : List (Text × β)} {e : Text × β} (h : e ∈ (ofList pairs).entries) :
    e.1 ∈ pairs.map Prod.fst := by
  rw [← List.mem_eraseDups, ← keys_ofList]
  exact List.mem_map_of_mem h

/-- Other names and other values, in the same places: the names that occur must stay different. -/
theorem entries_ofList_rename {g : Text → Text} (f : β → γ) {pairs : List (Text × β)}
    (hg : Set.InjOn g {x | x ∈ pairs.map Prod.fst}) :
    (ofList (pairs.map fun d => (g d.1, f d.2))).entries =
      (ofList pairs).entries.map fun d => (g d.1, f d.2) := by
  have hput : ∀ (name : Text) (v : β) (es : List (Text × β)), (∀ e ∈ es, g e.1 = g name ↔ e.1 = name) →
      put (g name) (f v) (es.map fun d => (g d.1, f d.2)) =
        (put name v es).map fun d => (g d.1, f d.2) := by
    intro name v es hes
    induction es with
    | nil => rfl
    | cons e es ih =>
      obtain ⟨he, hes⟩ := List.forall_mem_cons.1 hes
      simp only [List.map_cons, put, he]
      split
      · rfl
      · rw [ih hes, List.map_cons]
  induction pairs using List.reverseRecOn with
  | nil => rfl
  | append_singleton pairs d ih =>
    -- the last name must differ from those that stand already
    have hinit := ih (hg.mono fun x hx => by
      rw [Set.mem_ofPred_eq, List.map_append]; exact List.mem_append_left _ hx)
    have hlast : ∀ e ∈ (ofList pairs).entries, g e.1 = g d.1 ↔ e.1 = d.1 := by
      intro e he
      have hmem := mem_of_mem_entries he
      exact hg.eq_iff (by simp only [Set.mem_ofPred_eq, List.map_append, List.mem_append]; exact .inl hmem)
        (by simp)
    have hstep := hput d.1 d.2 (ofList pairs).entries hlast
    simp only [ofList, List.map_append, List.foldl_append, List.map_cons, List.map_nil, List.foldl_cons,
      List.foldl_nil, insert] at hinit hstep ⊢
    rw [hinit, hstep]

/-- Changing the values changes neither names nor places. -/
theorem entries_ofList_map (f : β → γ) (pairs : List (Text × β)) :
    (ofList (pairs.map fun d => (d.1, f d.2))).entries =
      (ofList pairs).entries.map fun d => (d.1, f d.2) :=
  entries_ofList_rename f Function.injective_id.injOn

/-- A name is found under its other name, with the other value. -/
theorem lookup_rename {g : Text → Text} (f : β → γ) (es : List (Text × β)) {x : Text}
    (hg : ∀ e ∈ es, g e.1 = g x → e.1 = x) :
    lookup (g x) (es.map fun d => (g d.1, f d.2)) = (lookup x es).map f := by
  induction es with
  | nil => rfl
  | cons e es ih =>
    obtain ⟨k, w⟩ := e
    obtain ⟨he, hes⟩ := List.forall_mem_cons.1 hg
    by_cases hk : k = x
    · simp [lookup, hk]
    · have hne : g k ≠ g x := fun heq => hk (he heq)
      simp only [List.map_cons, lookup, if_neg hk, if_neg hne]
      exact ih hes

end OrderedMap

end Minicore
