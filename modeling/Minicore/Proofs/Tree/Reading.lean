/-
  READING a presented tree — every presentation of a node is read as that node.

  Problem: the reader looks for entries by their keys, counts them, fills up what is missing and tries
  the forms of a literal; a presentation is free in all of this, at every node of the tree.

  1. **Specification** — `Presents v n`: the value `v` is one of the ways to write the node `n`.

  2. **One node** — whatever the form, the reader finds the kind and what is given for each field
     (`ofEntries?_of_perm`, `ofItems?_cons`), because an order of entries does not show in the only
     entry of a key; and the fields make the node (`node?_of_isRead`).

  3. **The tree** — the nodes in a node lie one level deeper, so the limit of the reader on nested nodes
     is never reached before the limit on the whole value is: induction on the limit
     (`read_of_presents`).  Two nodes have no presentation in common (`Presents.unique`).
-/
import Minicore.Build
import Minicore.Tree.Presented
import Mathlib.Data.List.Nodup

namespace Minicore

/-- Reading one by one what can be read. -/
theorem mapM_of_forall₂ {α β : Type} {f : α → Option β} {as : List α} {bs : List β}
    (h : List.Forall₂ (fun a b => f a = some b) as bs) : as.mapM f = some bs := by
  induction h with
  | nil => rfl
  | cons hab _ ih =>
    rw [List.mapM_cons, hab, ih]
    rfl

namespace Presentation

variable {k : Kind} {given : List (Option Value)} {es fs entries others : List (Value × Value)} {x : Text}

/-! ## Entries under their names -/

/-- The values under a name. -/
def under (x : Text) (es : List (Value × Value)) : List Value :=
  (es.filter fun e => e.1.name? == some x).map Prod.snd

theorem under_append (x : Text) (es fs : List (Value × Value)) :
    under x (es ++ fs) = under x es ++ under x fs := by
  rw [under, List.filter_append, List.map_append]
  rfl

theorem under_perm (x : Text) (h : es.Perm fs) : (under x es).Perm (under x fs) := (h.filter _).map _

theorem under_eq_nil (h : ∀ e ∈ es, e.1 ≠ .string x) : under x es = [] := by
  rw [under, List.map_eq_nil_iff, List.filter_eq_nil_iff]
  intro e he hx
  refine h e he ?_
  unfold Value.name? at hx
  split at hx
  · rename_i t heq
    rw [heq, Option.some.inj (beq_iff_eq.1 hx)]
  · cases hx

theorem givenEntries_cons (f : Text) (names : List Text) (o : Option Value) (given : List (Option Value)) :
    givenEntries (f :: names) (o :: given) =
      (o.toList.map fun v => (.string f, v)) ++ givenEntries names given := by
  cases o <;> rfl

/-- The keys of the entries are names of fields. -/
theorem exists_of_mem_givenEntries {names : List Text} {e : Value × Value}
    (h : e ∈ givenEntries names given) : ∃ x ∈ names, e.1 = .string x := by
  induction names generalizing given with
  | nil => exact nomatch h
  | cons f names ih =>
    cases given with
    | nil => exact nomatch h
    | cons o given =>
      rw [givenEntries_cons, List.mem_append] at h
      rcases h with h | h
      · obtain ⟨v, -, rfl⟩ := List.mem_map.1 h
        exact ⟨f, List.mem_cons_self, rfl⟩
      · obtain ⟨x, hx, he⟩ := ih h
        exact ⟨x, List.mem_cons_of_mem _ hx, he⟩

/-- Every value that is given has its entry. -/
theorem mem_givenEntries {names : List Text} (hlength : given.length = names.length) {v : Value}
    (hv : some v ∈ given) : ∃ x, (.string x, v) ∈ givenEntries names given := by
  induction names generalizing given with
  | nil =>
    rw [List.length_eq_zero_iff.1 hlength] at hv
    exact nomatch hv
  | cons f names ih =>
    cases given with
    | nil => cases hlength
    | cons o given =>
      simp only [givenEntries_cons, List.mem_append]
      rcases List.mem_cons.1 hv with rfl | hv
      · exact ⟨f, .inl List.mem_cons_self⟩
      · obtain ⟨x, hx⟩ := ih (Nat.succ.inj hlength) hv
        exact ⟨x, .inr hx⟩

/-- Under the name of a field stands what is given for it. -/
theorem under_givenEntries {names : List Text} (hnames : names.Nodup)
    (hlength : given.length = names.length) {i : Nat} (hi : i < names.length) :
    under names[i] (givenEntries names given) = given[i].toList := by
  induction names generalizing given i with
  | nil => exact absurd hi (Nat.not_lt_zero _)
  | cons f names ih =>
    obtain ⟨hf, hnames⟩ := List.nodup_cons.1 hnames
    cases given with
    | nil => cases hlength
    | cons o given =>
      rw [givenEntries_cons, under_append]
      cases i with
      | zero =>
        -- no other entry has the name
        have hrest : under f (givenEntries names given) = [] := under_eq_nil fun e he hkey => by
          obtain ⟨x, hx, he⟩ := exists_of_mem_givenEntries he
          rw [he, Value.string.injEq] at hkey
          exact hf (hkey ▸ hx)
        show under f _ ++ under f _ = o.toList
        rw [hrest]
        cases o <;> simp [under, Value.name?]
      | succ i =>
        have hi : i < names.length := Nat.lt_of_succ_lt_succ hi
        have hfirst : under names[i] (o.toList.map fun v => (.string f, v)) = [] :=
          under_eq_nil fun e he hkey => by
            obtain ⟨v, -, rfl⟩ := List.mem_map.1 he
            exact hf (Value.string.inj hkey ▸ List.getElem_mem hi)
        show under names[i] _ ++ under names[i] _ = _
        rw [hfirst]
        exact ih hnames (Nat.succ.inj hlength) hi

/-! ## A mapping -/

/-- The field that a key names. -/
def fieldOf (k : Kind) (key : Value) : Option Nat :=
  key.name?.bind fun x => k.fields.findIdx? fun f => f == x

theorem fieldOf_eq_some_iff {key : Value} {i : Nat} (hi : i < k.fields.length) :
    fieldOf k key = some i ↔ key.name? = some k.fields[i] := by
  rw [fieldOf, Option.bind_eq_some_iff]
  constructor
  · rintro ⟨x, hx, hfind⟩
    obtain ⟨_, hsame, _⟩ := List.findIdx?_eq_some_iff_getElem.1 hfind
    rw [hx, beq_iff_eq.1 hsame]
  · intro h
    refine ⟨_, h, List.findIdx?_eq_some_iff_getElem.2 ⟨hi, beq_self_eq_true _, fun j hj hsame => ?_⟩⟩
    have := (List.Nodup.getElem_inj_iff k.nodup_fields).1 (beq_iff_eq.1 hsame)
    omega

/-- The entries for a field are those with its name. -/
theorem valuesOf_fieldOf {i : Nat} (hi : i < k.fields.length) :
    valuesOf i (es.map fun e => (fieldOf k e.1, e.2)) = under k.fields[i] es := by
  have hsame : (fun e : Value × Value => fieldOf k e.1 == some i) =
      fun e => e.1.name? == some k.fields[i] := by
    funext e
    rw [Bool.eq_iff_iff, beq_iff_eq, beq_iff_eq]
    exact fieldOf_eq_some_iff hi
  rw [valuesOf, List.filter_map, List.map_map, under, ← hsame]
  rfl

theorem unique?_of_perm {l : List Value} {o : Option Value} (h : l.Perm o.toList) : unique? l = some o := by
  cases o with
  | none => rw [List.perm_nil.1 h, unique?]
  | some v => rw [List.perm_singleton.1 h, unique?]

/-- Keys that are strings tell their fields. -/
theorem mapM_fieldIndex? (h : ∀ e ∈ es, ∃ x, e.1 = .string x) :
    (es.mapM fun e => (fieldIndex? k e.1).map fun i => (i, e.2)) =
      some (es.map fun e => (fieldOf k e.1, e.2)) := by
  refine mapM_of_forall₂ (List.forall₂_map_right_iff.2 (List.forall₂_same.2 fun e he => ?_))
  obtain ⟨x, hkey⟩ := h e he
  rw [hkey]
  rfl

/-- No entry that says nothing has the name of a field. -/
theorem under_ignored (h : ∀ e ∈ others, k.Ignores e.1) (hx : x ∈ k.fields) : under x others = [] := by
  refine under_eq_nil fun e he hkey => ?_
  obtain ⟨y, hy, -, hfree⟩ := h e he
  rw [hkey, Value.string.injEq] at hy
  exact hfree (hy ▸ hx)

/-- **The fields**: each is given once or not at all, so an order of the entries does not show. -/
theorem mapM_valuesOf (hlength : given.length = k.fields.length) (hothers : ∀ e ∈ others, k.Ignores e.1)
    (h : es.Perm (givenEntries k.fields given ++ others)) :
    ((List.range k.fields.length).mapM fun i =>
      unique? (valuesOf i (es.map fun e => (fieldOf k e.1, e.2)))) = some given := by
  refine mapM_of_forall₂ (List.forall₂_iff_get.2 ⟨by simp [hlength], fun i hi hi' => ?_⟩)
  have hi : i < k.fields.length := hlength ▸ hi'
  simp only [List.get_eq_getElem, List.getElem_range]
  rw [valuesOf_fieldOf hi]
  refine unique?_of_perm ((under_perm _ h).trans ?_)
  rw [under_append, under_ignored hothers (List.getElem_mem hi), List.append_nil,
    under_givenEntries k.nodup_fields hlength hi]

/-- Besides the kind all keys are strings, and none is the word for the kind. -/
theorem key_of_mem (hothers : ∀ e ∈ others, k.Ignores e.1) {e : Value × Value}
    (he : e ∈ givenEntries k.fields given ++ others) : ∃ x, e.1 = .string x ∧ x ≠ kindField := by
  rcases List.mem_append.1 he with he | he
  · obtain ⟨x, hx, hkey⟩ := exists_of_mem_givenEntries he
    refine ⟨x, hkey, ?_⟩
    rintro rfl
    exact absurd hx (by cases k <;> decide)
  · obtain ⟨x, hkey, hx, -⟩ := hothers e he
    exact ⟨x, hkey, hx⟩

/-- **A mapping** tells the kind and the fields, whatever the order of its entries. -/
theorem ofEntries?_of_perm (numbered : Bool) (hlength : given.length = k.fields.length)
    (hothers : ∀ e ∈ others, k.Ignores e.1)
    (h : entries.Perm ((.string kindField, .string k.name) :: givenEntries k.fields given ++ others)) :
    ofEntries? numbered entries = some ⟨k, given⟩ := by
  have hnokind : ∀ e ∈ givenEntries k.fields given ++ others, isKindKey e.1 = false := by
    intro e he
    obtain ⟨x, hkey, hx⟩ := key_of_mem hothers he
    rw [hkey]
    exact beq_eq_false_iff_ne.2 hx
  -- the entry of the kind, and all others
  have hkind : entries.filter (fun e => isKindKey e.1) = [(.string kindField, .string k.name)] := by
    refine List.perm_singleton.1 ((h.filter _).trans ?_)
    rw [List.cons_append, List.filter_cons_of_pos (by rfl),
      List.filter_eq_nil_iff.2 fun e he => by simp [hnokind e he]]
  have hrest : (entries.filter fun e => !isKindKey e.1).Perm (givenEntries k.fields given ++ others) := by
    refine (h.filter _).trans ?_
    rw [List.cons_append, List.filter_cons_of_neg (by simp [isKindKey]),
      List.filter_eq_self.2 fun e he => by simp [hnokind e he]]
  have hstring : ∀ e ∈ entries.filter (fun e => !isKindKey e.1), ∃ x, e.1 = .string x := by
    intro e he
    obtain ⟨x, hkey, -⟩ := key_of_mem hothers (hrest.subset he)
    exact ⟨x, hkey⟩
  have hname : kind? numbered (.string k.name) = some k := Kind.ofName?_eq_some_iff.2 rfl
  simp only [ofEntries?, hkind, List.map_cons, List.map_nil, hname, Option.bind_eq_bind,
    Option.bind_some, mapM_fieldIndex? hstring, mapM_valuesOf hlength hothers hrest]
  rfl

/-! ## A sequence -/

/-- **A sequence** tells the kind and the fields as far as it goes. -/
theorem ofItems?_cons (numbered : Bool) {items : List Value} {missing : Nat}
    (hlength : (items.map some ++ List.replicate missing none).length = k.fields.length) :
    ofItems? numbered (.string k.name :: items) =
      some ⟨k, items.map some ++ List.replicate missing none⟩ := by
  have hname : kind? numbered (.string k.name) = some k := Kind.ofName?_eq_some_iff.2 rfl
  rw [List.length_append, List.length_map, List.length_replicate] at hlength
  have hmissing : k.fields.length - items.length = missing := by omega
  simp only [ofItems?, hname, hmissing, if_pos (show items.length ≤ k.fields.length by omega)]

end Presentation

/-! ## The fields -/

/-- The reader finds in what is given for a field what the field holds. -/
def Field.IsRead (read : Value → Option Node) (given : Option Value) : Field → Prop
  | .name t => given.bind Value.name? = some t
  | .literal t => given.bind Value.literal? = some t
  | .operator op => given.bind Value.operator? = some op
  | .node n => given.bind read = some n
  | .nodes ns => given.bind (Value.nodes? read) = some ns
  | .optional n => Value.optional? read given = some n

/-- The fields of a node make the node. -/
theorem Presentation.node?_of_isRead {read : Value → Option Node} {n : Node} {given : List (Option Value)}
    (h : List.Forall₂ (Field.IsRead read) given n.fields) :
    Presentation.node? read ⟨n.kind, given⟩ = some n := by
  cases n with
  | program _ | block _ | wait _ | exprStmt _ | ident _ | intLit _ =>
    obtain _ | ⟨h₁, ⟨⟩⟩ := h
    obtain ⟨v₁, rfl, hv₁⟩ := Option.bind_eq_some_iff.1 h₁
    simp only [Presentation.node?, Node.kind, hv₁, Option.map_some]
  | scalarInit _ _ | scalarAssign _ _ | whileLoop _ _ =>
    obtain _ | ⟨h₁, _ | ⟨h₂, ⟨⟩⟩⟩ := h
    obtain ⟨v₁, rfl, hv₁⟩ := Option.bind_eq_some_iff.1 h₁
    obtain ⟨v₂, rfl, hv₂⟩ := Option.bind_eq_some_iff.1 h₂
    simp only [Presentation.node?, Node.kind, hv₁, hv₂, Option.bind_eq_bind, Option.bind_some]
    rfl
  | tableInit _ _ _ | tableAssign _ _ _ | binary _ _ _ =>
    obtain _ | ⟨h₁, _ | ⟨h₂, _ | ⟨h₃, ⟨⟩⟩⟩⟩ := h
    obtain ⟨v₁, rfl, hv₁⟩ := Option.bind_eq_some_iff.1 h₁
    obtain ⟨v₂, rfl, hv₂⟩ := Option.bind_eq_some_iff.1 h₂
    obtain ⟨v₃, rfl, hv₃⟩ := Option.bind_eq_some_iff.1 h₃
    simp only [Presentation.node?, Node.kind, hv₁, hv₂, hv₃, Option.bind_eq_bind, Option.bind_some]
    rfl
  | ifElse _ _ _ =>
    obtain _ | ⟨h₁, _ | ⟨h₂, _ | ⟨h₃, ⟨⟩⟩⟩⟩ := h
    obtain ⟨v₁, rfl, hv₁⟩ := Option.bind_eq_some_iff.1 h₁
    obtain ⟨v₂, rfl, hv₂⟩ := Option.bind_eq_some_iff.1 h₂
    have h₃ : Value.optional? read _ = some _ := h₃
    simp only [Presentation.node?, Node.kind, hv₁, hv₂, h₃, Option.bind_eq_bind, Option.bind_some]
    rfl

/-- An integer is read as its text. -/
theorem Value.literal?_of_integer? {v : Value} {i : Int} (h : v.integer? = some i) :
    v.literal? = some (Numeral.integer i) := by
  have hsigned : ∀ i : Int, (Value.signed i).literal? = some (Numeral.integer i)
    | .ofNat _ => rfl
    | .negSucc n => by rw [Numeral.integer, if_pos (Int.negSucc_lt_zero n)]; rfl
  unfold Value.integer? at h
  split at h <;> cases h
  · rfl
  · exact hsigned i

/-- What presents a node is a sequence or a mapping. -/
theorem Presents.depth_pos {v : Value} {n : Node} (h : Presents v n) : 0 < v.depth := by
  cases h <;> exact Nat.succ_pos _

/-! ## The tree -/

/-- Reading one level: the kind and what is given for the fields are found, and nothing given lies
    deeper than the value. -/
theorem Presents.exists_given {v : Value} {n : Node} (h : Presents v n) (numbered : Bool) :
    ∃ given, Presentation.ofValue? numbered v = some ⟨n.kind, given⟩ ∧
      List.Forall₂ Tells given n.fields ∧ ∀ w, some w ∈ given → w.depth < v.depth := by
  cases h with
  | @mapping _ given others entries hgiven hothers hentries =>
    have hlength : given.length = n.kind.fields.length := hgiven.length_eq.trans n.length_fields
    refine ⟨given, Presentation.ofEntries?_of_perm numbered hlength hothers hentries, hgiven, ?_⟩
    intro w hw
    obtain ⟨x, hmem⟩ := Presentation.mem_givenEntries hlength hw
    have hmem : (Value.string x, w) ∈ entries :=
      hentries.symm.subset (List.mem_append_left _ (List.mem_cons_of_mem _ hmem))
    exact Nat.lt_succ_of_le (Value.depth_le_entriesDepth hmem).2
  | @sequence _ items missing hgiven =>
    refine ⟨_, Presentation.ofItems?_cons numbered (hgiven.length_eq.trans n.length_fields), hgiven, ?_⟩
    intro w hw
    have hmem : w ∈ items := by simpa [List.mem_replicate] using hw
    exact Nat.lt_succ_of_le (Value.depth_le_listDepth (List.mem_cons_of_mem _ hmem))

/-- Reading one field, when the nodes in it can be read. -/
theorem Tells.isRead {read : Value → Option Node} {limit : Nat} {given : Option Value} {f : Field}
    (hread : ∀ {v n}, Presents v n → v.depth ≤ limit → read v = some n) (h : Tells given f)
    (hdepth : ∀ v, given = some v → v.depth ≤ limit) : f.IsRead read given := by
  cases h with
  | name t => rfl
  | text t => rfl
  | integer hv _ _ => exact Value.literal?_of_integer? hv
  | operator op => exact Operator.ofSign?_eq_some_iff.2 rfl
  | node h => exact hread h (hdepth _ rfl)
  | @nodes vs ns h =>
    have hvs : ∀ v ∈ vs, v.depth ≤ limit := fun v hv => by
      have hlist := Value.depth_le_listDepth hv
      have hlimit : Value.listDepth vs + 1 ≤ limit := hdepth _ rfl
      omega
    exact mapM_of_forall₂ (((List.forall₂_and_left vs ns).2 ⟨hvs, h⟩).imp fun v n h => hread h.2 h.1)
  | missing => rfl
  | null => rfl
  | @optional v n h =>
    have hv : read v = some n := hread h (hdepth _ rfl)
    cases h <;> exact congrArg (Option.map some) hv

/-- **Every presentation** of a node is read as the node, if the limit admits its nesting. -/
theorem read_of_presents {limit : Nat} {numbered : Bool} {v : Value} {n : Node} (h : Presents v n)
    (hdepth : v.depth ≤ limit) : Node.read numbered limit v = some n := by
  induction limit generalizing numbered v n with
  | zero => exact absurd hdepth (Nat.not_le.2 h.depth_pos)
  | succ limit ih =>
    obtain ⟨given, hvalue, htells, hdeep⟩ := h.exists_given numbered
    have hgiven : ∀ o ∈ given, ∀ w, o = some w → w.depth ≤ limit := by
      rintro _ ho w rfl
      have := hdeep w ho
      omega
    rw [Node.read, hvalue, Option.bind_some]
    exact Presentation.node?_of_isRead
      (((List.forall₂_and_left given _).2 ⟨hgiven, htells⟩).imp fun o f h => h.2.isRead ih h.1)

/-- A value presents one node at most. -/
theorem Presents.unique {v : Value} {m n : Node} (hm : Presents v m) (hn : Presents v n) : m = n := by
  have hread : Node.read true v.depth v = some m := read_of_presents hm (Nat.le_refl _)
  rw [read_of_presents hn (Nat.le_refl _)] at hread
  exact (Option.some.inj hread).symm

/-! ## The written form -/

/-- Entries for the first fields. -/
theorem givenEntries_replicate (names : List Text) (values : List Value) (missing : Nat) :
    givenEntries names (values.map some ++ List.replicate missing none) =
      (names.map Value.string).zip values := by
  induction names generalizing values missing with
  | nil => cases values <;> cases missing <;> rfl
  | cons f names ih =>
    cases values with
    | nil =>
      cases missing with
      | zero => rfl
      | succ missing =>
        rw [List.zip_nil_right]
        exact (ih [] missing).trans List.zip_nil_right
    | cons v values => exact congrArg _ (ih values missing)

/-- A mapping that gives the fields in their order. -/
theorem presents_ofFields {n : Node} {values : List Value} (missing : Nat)
    (h : List.Forall₂ Tells (values.map some ++ List.replicate missing none) n.fields) :
    Presents (.ofFields n.kind values) n := by
  refine .mapping h (List.forall_mem_nil _) ?_
  rw [givenEntries_replicate, List.append_nil]

mutual

/-- **The written form** of a node presents it. -/
theorem presents_toValue : ∀ n : Node, Presents n.toValue n
  | .program ss => presents_ofFields (n := .program ss) 0 (.cons (.nodes (presents_toValues ss)) .nil)
  | .block ss => presents_ofFields (n := .block ss) 0 (.cons (.nodes (presents_toValues ss)) .nil)
  | .scalarInit x value =>
    presents_ofFields (n := .scalarInit x value) 0
      (.cons (.name x) (.cons (.node (presents_toValue value)) .nil))
  | .tableInit x size default =>
    presents_ofFields (n := .tableInit x size default) 0
      (.cons (.name x) (.cons (.text size) (.cons (.text default) .nil)))
  | .wait duration => presents_ofFields (n := .wait duration) 0 (.cons (.text duration) .nil)
  | .scalarAssign target value =>
    presents_ofFields (n := .scalarAssign target value) 0
      (.cons (.node (presents_toValue target)) (.cons (.node (presents_toValue value)) .nil))
  | .tableAssign target index value =>
    presents_ofFields (n := .tableAssign target index value) 0
      (.cons (.node (presents_toValue target)) (.cons (.node (presents_toValue index))
        (.cons (.node (presents_toValue value)) .nil)))
  | .ifElse condition consequence none =>
    presents_ofFields (n := .ifElse condition consequence none) 1
      (.cons (.node (presents_toValue condition)) (.cons (.node (presents_toValue consequence))
        (.cons .missing .nil)))
  | .ifElse condition consequence (some alternative) =>
    presents_ofFields (n := .ifElse condition consequence (some alternative)) 0
      (.cons (.node (presents_toValue condition)) (.cons (.node (presents_toValue consequence))
        (.cons (.optional (presents_toValue alternative)) .nil)))
  | .whileLoop condition body =>
    presents_ofFields (n := .whileLoop condition body) 0
      (.cons (.node (presents_toValue condition)) (.cons (.node (presents_toValue body)) .nil))
  | .exprStmt expr =>
    presents_ofFields (n := .exprStmt expr) 0 (.cons (.node (presents_toValue expr)) .nil)
  | .ident x => presents_ofFields (n := .ident x) 0 (.cons (.name x) .nil)
  | .intLit value => presents_ofFields (n := .intLit value) 0 (.cons (.text value) .nil)
  | .binary op left right =>
    presents_ofFields (n := .binary op left right) 0
      (.cons (.operator op) (.cons (.node (presents_toValue left))
        (.cons (.node (presents_toValue right)) .nil)))

theorem presents_toValues : ∀ ns : List Node, List.Forall₂ Presents (Node.toValues ns) ns
  | [] => .nil
  | n :: ns => .cons (presents_toValue n) (presents_toValues ns)

end

/-! ## Documents -/

/-- **Reading presentations.**  Whatever reads documents: a text that denotes a value is read as the node
    that the value presents, whichever of the presentations it is, as long as no more than 128 sequences
    and mappings are nested in it; the written form of a node is one of them. -/
theorem tree_of_document {read : DocumentReader} {t : Text} {v : Value} {n : Node}
    (hvalue : read t = some v) (hdepth : v.depth ≤ nestingLimit) :
    (Presents v n → Node.readWith read t = some n) ∧ (v = n.toValue → Node.readWith read t = some n) := by
  have hread : Presents v n → Node.readWith read t = some n := by
    intro h
    rw [Node.readWith, hvalue, Option.bind_some, Node.ofValue?, if_pos hdepth]
    exact read_of_presents h hdepth
  refine ⟨hread, ?_⟩
  rintro rfl
  exact hread (presents_toValue n)

/-- A document that uses every freedom: both forms, entries from last to first, one that says nothing, a
    number and a text as literals, and null where there is no alternative. -/
def Text.shuffled : Text :=
  ("statements:\n- [wait, 16]\n- note: [~]\n  alternative: ~\n  consequence: [block, []]\n" ++
    "  condition: [int_lit, '007']\n  kind: if\nkind: program\n").toList

/-- Its value. -/
def Value.shuffled : Value := .mapping [
  (.string "statements".toList, .sequence [
    .sequence [.string "wait".toList, .unsigned 16],
    .mapping [
      (.string "note".toList, .sequence [.null]),
      (.string "alternative".toList, .null),
      (.string "consequence".toList, .sequence [.string "block".toList, .sequence []]),
      (.string "condition".toList, .sequence [.string "int_lit".toList, .string "007".toList]),
      (.string "kind".toList, .string "if".toList)]]),
  (.string "kind".toList, .string "program".toList)]

/-- The node that it presents. -/
def Node.shuffled : Node := .program [
  .wait "16".toList,
  .ifElse (.intLit "007".toList) (.block []) none]

theorem Value.ofText?_shuffled : Value.ofText? Text.shuffled = some Value.shuffled := by
  have htokens : Yaml.tokens? Text.shuffled = some
      [.blockMapping, .key, .scalar true "statements".toList, .value,
        .entry,
          .flowSequence, .scalar true "wait".toList, .comma, .scalar true "16".toList, .flowSequenceEnd,
        .entry, .blockMapping,
          .key, .scalar true "note".toList, .value,
            .flowSequence, .scalar true "~".toList, .flowSequenceEnd,
          .key, .scalar true "alternative".toList, .value, .scalar true "~".toList,
          .key, .scalar true "consequence".toList, .value,
            .flowSequence, .scalar true "block".toList, .comma,
              .flowSequence, .flowSequenceEnd, .flowSequenceEnd,
          .key, .scalar true "condition".toList, .value,
            .flowSequence, .scalar true "int_lit".toList, .comma,
              .scalar false "007".toList, .flowSequenceEnd,
          .key, .scalar true "kind".toList, .value, .scalar true "if".toList, .blockEnd,
        .key, .scalar true "kind".toList, .value, .scalar true "program".toList, .blockEnd] := by
    decide +kernel
  have hallowed : Text.shuffled.all Yaml.isAllowed = true := by decide +kernel
  rw [Value.ofText?, if_pos hallowed, htokens]
  rfl

theorem presents_shuffled : Presents Value.shuffled Node.shuffled := by
  have htext : Numeral.integer 16 = "16".toList := by decide
  have hduration : Tells (some (.unsigned 16)) (.literal "16".toList) :=
    htext ▸ .integer rfl (by decide) (by decide)
  have hwait : Presents (.sequence [.string "wait".toList, .unsigned 16]) (.wait "16".toList) :=
    @Presents.sequence (.wait "16".toList) [.unsigned 16] 0 (.cons hduration .nil)
  have hcondition : Presents (.sequence [.string "int_lit".toList, .string "007".toList])
      (.intLit "007".toList) :=
    @Presents.sequence (.intLit "007".toList) [.string "007".toList] 0 (.cons (.text _) .nil)
  have hconsequence : Presents (.sequence [.string "block".toList, .sequence []]) (.block []) :=
    @Presents.sequence (.block []) [.sequence []] 0 (.cons (.nodes .nil) .nil)
  have hnote : ∀ e ∈ [(Value.string "note".toList, Value.sequence [.null])], Kind.ifElse.Ignores e.1 := by
    intro e he
    obtain rfl := List.mem_singleton.1 he
    exact ⟨_, rfl, by decide, by decide⟩
  refine .mapping (n := Node.shuffled) (.cons (.nodes (.cons hwait (.cons ?_ .nil))) .nil)
    (List.forall_mem_nil _) (List.reverse_perm [_, _])
  exact .mapping (n := .ifElse (.intLit "007".toList) (.block []) none)
    (.cons (.node hcondition) (.cons (.node hconsequence) (.cons .null .nil)))
    hnote (List.reverse_perm [_, _, _, _, _])

/-- It is read as that node. -/
theorem tree_of_shuffled :
    Value.ofText? Text.shuffled = some Value.shuffled ∧ Value.shuffled.depth ≤ nestingLimit ∧
      Presents Value.shuffled Node.shuffled ∧ Node.ofText? Text.shuffled = some Node.shuffled := by
  have hdepth : Value.shuffled.depth ≤ nestingLimit := by decide
  exact ⟨Value.ofText?_shuffled, hdepth, presents_shuffled,
    (tree_of_document Value.ofText?_shuffled hdepth).1 presents_shuffled⟩

end Minicore
