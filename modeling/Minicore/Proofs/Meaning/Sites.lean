/-
  SITES — which cell of the memory holds what.

  Problem: the generator knows variables, temporaries and tables by name; the processor knows numbers.
  A store is followed safely only if DIFFERENT sites have different addresses: the declarations of
  the program do not overlap, and the display lies behind the image.

  1. **Program** — a `Site` is a cell or an entry of a table; `Lies ss p j`: in the statements `ss` the
     site `p` has the address `j`.  `contents s t p` is what belongs there when the store is `s` and the
     temporaries are `t`.

  2. **No overlap** — an address tells the declaration it is in (`owner_unique`), so it tells the site
     (`Lies.injective`); a name tells its declaration (`definition_unique`), so a site has one address
     (`Lies.unique`).

  3. **Invariant** — `Represents ss s t memory`: every site holds its contents.  Writing to one site
     changes its contents and no others (`Represents.write`).
-/
import Minicore.Meaning.Execution
import Minicore.Proofs.Codegen.Fresh

namespace Minicore

open Statement (words names)

/-! ## Sites -/

/-- What an address may belong to. -/
inductive Site where
  | cell (c : Cell)
  | entry (table : Text) (index : UInt16)
  deriving Repr, DecidableEq

namespace Site

/-- The name that the site is declared under. -/
def name : Site → Text
  | cell c => c.name
  | entry x _ => tableName x

/-- The number of words before it in its declaration. -/
def offset : Site → Nat
  | cell _ => 0
  | entry _ i => i.toNat

/-- Every site but the display is declared. -/
def isDeclared : Site → Bool
  | cell _ => true
  | entry x _ => x ≠ screenName

theorem display_not_declared {i : UInt16} : ¬ (entry screenName i).isDeclared = true := by
  show ¬ decide (screenName ≠ screenName) = true
  simp

/-- A name of a table is no name of a cell. -/
theorem tableName_ne_cell (x : Text) (c : Cell) : tableName x ≠ c.name := by
  intro h
  have hstem := congrArg Text.stem h
  rw [stem_tableName] at hstem
  cases c with
  | temp n => rw [Cell.stem_temp] at hstem; exact absurd hstem (by decide)
  | var y => rw [Cell.stem_var] at hstem; exact absurd hstem (by decide)
  | zero => exact absurd hstem (by decide)
  | one => exact absurd hstem (by decide)

/-- Name and offset tell the site. -/
theorem eq_of_name {p q : Site} (hname : p.name = q.name) (hoffset : p.offset = q.offset) : p = q := by
  rcases p with c | ⟨x, i⟩
  · rcases q with d | ⟨y, j⟩
    · rw [Cell.name_injective hname]
    · exact absurd hname.symm (tableName_ne_cell y c)
  · rcases q with d | ⟨y, j⟩
    · exact absurd hname (tableName_ne_cell x d)
    · rw [tableName_injective hname, UInt16.toNat_inj.1 hoffset]

end Site

/-! ## Addresses -/

/-- In these statements the site has that address. -/
inductive Lies (ss : List Statement) : Site → Nat → Prop
  /-- A declared site lies in its declaration. -/
  | declared {before after : List Statement} {p : Site} {values : List UInt16} :
      p.isDeclared = true → ss = before ++ .data p.name values :: after → p.offset < values.length →
      Lies ss p (words before + p.offset)
  /-- The display lies behind the image. -/
  | display {i : UInt16} :
      i.toNat < screenCells → Lies ss (.entry screenName i) (screenBase.toNat + i.toNat)

/-- An address tells the statement it is in. -/
theorem owner_unique {as bs as' bs' : List Statement} {s s' : Statement} {j : Nat}
    (h : as ++ s :: bs = as' ++ s' :: bs') (hlo : words as ≤ j) (hhi : j < words as + s.width)
    (hlo' : words as' ≤ j) (hhi' : j < words as' + s'.width) : as = as' ∧ s = s' := by
  -- along both beginnings: the shorter one would end before the word
  induction as generalizing as' j with
  | nil =>
    cases as' with
    | nil => exact ⟨rfl, (List.cons.inj h).1⟩
    | cons b as' =>
      obtain ⟨rfl, -⟩ := List.cons.inj h
      rw [Statement.words_cons] at hlo'
      rw [Statement.words_nil] at hhi
      omega
  | cons b as ih =>
    cases as' with
    | nil =>
      obtain ⟨rfl, -⟩ := List.cons.inj h
      rw [Statement.words_cons] at hlo
      rw [Statement.words_nil] at hhi'
      omega
    | cons b' as' =>
      obtain ⟨rfl, hrest⟩ := List.cons.inj h
      rw [Statement.words_cons] at hlo hhi hlo' hhi'
      obtain ⟨rfl, rfl⟩ := ih (j := j - b.width) hrest (by omega) (by omega) (by omega) (by omega)
      exact ⟨rfl, rfl⟩

/-- With no name defined twice, a name tells the statement that defines it. -/
theorem definition_unique {as bs as' bs' : List Statement} {s s' : Statement} {x : Text}
    (h : as ++ s :: bs = as' ++ s' :: bs') (hn : (names (as ++ s :: bs)).Nodup)
    (hs : s.name? = some x) (hs' : s'.name? = some x) : as = as' ∧ s = s' := by
  -- a second definition would stand behind the first
  have hbehind : ∀ {as cs : List Statement} {s s' : Statement}, s.name? = some x →
      s'.name? = some x → s' ∈ cs → ¬ (names (as ++ s :: cs)).Nodup := by
    intro as cs s s' hs hs' hmem hnodup
    rw [Statement.names_append, List.nodup_append, names, names, List.filterMap_cons_some hs,
      List.nodup_cons] at hnodup
    exact hnodup.2.1.1 (List.mem_filterMap.2 ⟨s', hmem, hs'⟩)
  rcases List.append_eq_append_iff.1 h with ⟨cs, rfl, hc⟩ | ⟨cs, rfl, hc⟩
  · cases cs with
    | nil => exact ⟨(List.append_nil _).symm, (List.cons.inj hc).1⟩
    | cons c cs =>
      obtain ⟨rfl, rfl⟩ := List.cons.inj hc
      exact absurd hn (hbehind hs hs' (by simp))
  · cases cs with
    | nil => exact ⟨List.append_nil _, (List.cons.inj hc).1.symm⟩
    | cons c cs =>
      obtain ⟨rfl, rfl⟩ := List.cons.inj hc
      rw [List.append_assoc, List.cons_append] at hn
      exact absurd hn (hbehind hs' hs (by simp))

namespace Lies

variable {ss : List Statement} {p q : Site} {j k : Nat}

/-- A declared site lies inside the image, and everything has a 16-bit address. -/
theorem bounds (hss : words ss ≤ imageDepth) (h : Lies ss p j) :
    (p.isDeclared = true → j < imageDepth) ∧ j < 0x10000 := by
  have hdepth : imageDepth = 0x100 := rfl
  have hbase : screenBase.toNat = 0x200 := rfl
  have hcells : screenCells = 0xFE00 := rfl
  cases h with
  | declared _ heq hi =>
    rw [heq, Statement.words_append, Statement.words_cons, Statement.width] at hss
    exact ⟨fun _ => by omega, by omega⟩
  | display hi => exact ⟨fun h => absurd h Site.display_not_declared, by omega⟩

/-- **No overlap**: an address belongs to one site. -/
theorem injective (hss : words ss ≤ imageDepth) (hp : Lies ss p j) (hq : Lies ss q k) (hjk : j = k) :
    p = q := by
  have hdepth : imageDepth = 0x100 := rfl
  have hbase : screenBase.toNat = 0x200 := rfl
  have hin := (bounds hss hp).1
  have hin' := (bounds hss hq).1
  -- declared sites lie below the depth of the image, the display above it
  cases hp with
  | @declared before _ _ values hd heq hi =>
    have hlt := hin hd
    cases hq with
    | @declared before' _ _ values' _ heq' hi' =>
      have hhi : words before + p.offset < words before + (Statement.data p.name values).width := by
        rw [Statement.width]
        omega
      have hhi' : words before + p.offset < words before' + (Statement.data q.name values').width := by
        rw [Statement.width]
        omega
      obtain ⟨rfl, hsame⟩ := owner_unique (heq.symm.trans heq') (by omega) hhi (by omega) hhi'
      injection hsame with hname
      exact Site.eq_of_name hname (by omega)
    | display _ => omega
  | @display i hi =>
    cases hq with
    | declared hd _ _ =>
      have hlt := hin' hd
      omega
    | @display i' _ =>
      have hindex : i = i' := UInt16.toNat_inj.1 (by omega)
      rw [hindex]

/-- A site has one address. -/
theorem unique (hn : (names ss).Nodup) (hp : Lies ss p j) (hq : Lies ss p k) : j = k := by
  cases hp with
  | declared hd heq _ =>
    cases hq with
    | declared _ heq' _ =>
      rw [heq] at hn
      obtain ⟨rfl, -⟩ := definition_unique (heq.symm.trans heq') hn rfl rfl
      rfl
    | display _ => exact absurd hd Site.display_not_declared
  | display _ =>
    cases hq with
    | declared hd _ _ => exact absurd hd Site.display_not_declared
    | display _ => rfl

/-- Addresses as the processor counts them are equal for one site only. -/
theorem ofNat_eq_iff (hss : words ss ≤ imageDepth) (hn : (names ss).Nodup) (hp : Lies ss p j)
    (hq : Lies ss q k) : UInt16.ofNat j = UInt16.ofNat k ↔ p = q := by
  constructor
  · intro h
    have hj := (bounds hss hp).2
    have hk := (bounds hss hq).2
    have hnat := congrArg UInt16.toNat h
    rw [UInt16.toNat_ofNat', UInt16.toNat_ofNat'] at hnat
    exact injective hss hp hq (by omega)
  · rintro rfl
    rw [unique hn hp hq]

end Lies

/-! ## What the sites hold -/

/-- What belongs in a site when the store is `s` and the temporaries are `t`. -/
def contents (s : Store) (t : Nat → UInt16) : Site → UInt16
  | .cell (.temp n) => t n
  | .cell (.var x) => s.vars x
  | .cell .zero => 0
  | .cell .one => 1
  | .entry x i => s.tables x i

/-- Every site holds what belongs there. -/
def Represents (ss : List Statement) (s : Store) (t : Nat → UInt16) (memory : UInt16 → UInt16) : Prop :=
  ∀ p j, Lies ss p j → memory (UInt16.ofNat j) = contents s t p

/-- The temporaries with `v` in the one of that number. -/
def setTemp (t : Nat → UInt16) (n : Nat) (v : UInt16) : Nat → UInt16 := fun k => if k = n then v else t k

/-- Store and temporaries become others when `v` is put into the site `p`. -/
def Puts (p : Site) (v : UInt16) (s : Store) (t : Nat → UInt16) (s' : Store) (t' : Nat → UInt16) :
    Prop :=
  ∀ q, contents s' t' q = if q = p then v else contents s t q

section Puts

variable (s : Store) (t : Nat → UInt16) (v : UInt16)

theorem puts_temp (n : Nat) : Puts (.cell (.temp n)) v s t s (setTemp t n v) := by
  intro q
  rcases q with c | ⟨x, i⟩
  · cases c with
    | temp k => simp [contents, setTemp]
    | _ => simp [contents]
  · simp [contents]

theorem puts_var (x : Text) : Puts (.cell (.var x)) v s t (s.setVar x v) t := by
  intro q
  rcases q with c | ⟨y, i⟩
  · cases c with
    | var y => simp [contents, Store.setVar]
    | _ => simp [contents]
  · simp [contents, Store.setVar]

theorem puts_entry (x : Text) (i : UInt16) : Puts (.entry x i) v s t (s.setCell x i v) t := by
  intro q
  rcases q with c | ⟨y, j⟩
  · cases c <;> simp [contents, Store.setCell]
  · simp [contents, Store.setCell]

end Puts

/-- **Writing** to one site changes what it holds and nothing else. -/
theorem Represents.write {ss : List Statement} {s s' : Store} {t t' : Nat → UInt16}
    {memory : UInt16 → UInt16} {p : Site} {j : Nat} {v : UInt16} (hss : words ss ≤ imageDepth)
    (hn : (names ss).Nodup) (h : Represents ss s t memory) (hp : Lies ss p j)
    (hputs : Puts p v s t s' t') :
    Represents ss s' t' fun a => if a = UInt16.ofNat j then v else memory a := by
  intro q k hq
  show (if UInt16.ofNat k = UInt16.ofNat j then v else memory (UInt16.ofNat k)) = contents s' t' q
  have hiff := Lies.ofNat_eq_iff hss hn hq hp
  rw [hputs q, h q k hq]
  by_cases hsame : q = p
  · rw [if_pos (hiff.2 hsame), if_pos hsame]
  · rw [if_neg (fun heq => hsame (hiff.1 heq)), if_neg hsame]

end Minicore
