/-
  OUTCOME OF LINKING — whether a program links can be told from its tree.

  Problem: a program that can be generated may still not fit the image, or use a name that nothing
  declares.  Both are found out by the assembler, line by line, in a text that the author of the tree
  never sees.

  1. **Program** — a tree that compiles, with identifiers for its names.  Every line of its text can be
     read (`readable_lines`), so the words and the names of its statements decide alone.

  2. **Specification** — it overflows exactly when its footprint is larger than the image; if it fits,
     it has an unresolved symbol exactly when it is open; otherwise it links (`outcome_of_link`).
     Declarations count wherever they stand, also behind their use or where no execution comes.
-/
import Minicore.Proofs.Codegen.Footprint
import Minicore.Proofs.Codegen.References

namespace Minicore

open Statement (words names references AllReadable)

/-! ## The tree as a block -/

theorem Node.footprint_program (ns : List Node) : (program ns).footprint = (block ns).footprint := by
  rw [footprint, footprint, tableCells, tableCells, tables_program, scalars, scalars,
    assigned_program]
  rfl

theorem Node.open_program (ns : List Node) : (program ns).Open ↔ (block ns).Open := by
  rw [Open, Open, tables_program, assigned_program, tableTargets_program]
  rfl

/-! ## The text of a program -/

/-- Every line of a compiled text can be read. -/
theorem readable_lines {n : Node} {n₀ n₁ : Names} {e : Emission} {ks : List (Nat × UInt16)}
    (h : StatementCode n n₀ n₁ e ks) (hbody : AllReadable e.body) :
    ∀ line ∈ (Text.unlines (Streams.empty.extend e).lines).lines, ∃ s, Statement.read line = .ok s := by
  obtain ⟨behind, hlines, -, hbehind⟩ := h.lines_program
  have hmeaningful : ∀ line, Layout.Meaningful line → ∃ s, Statement.read line = .ok s := by
    rintro line (hblank | ⟨s, hs⟩)
    · exact ⟨none, Statement.read_of_blank hblank⟩
    · exact ⟨some s, hs⟩
  intro line hline
  rw [hlines, List.mem_append] at hline
  rcases hline with hline | hline
  · exact hmeaningful line
      ((statements_lines hbody fun s hs => Statement.read_bodyLine hs).2 line hline)
  · exact hmeaningful line (hbehind line hline)

/-! ## The whole -/

/-- **Outcome of linking.**  Let a program compile, all its names being identifiers.  Linking it fails
    with an overflow exactly when its footprint is more than the image holds; it fails with an unresolved
    symbol exactly when the footprint fits and the program uses a variable that it never assigns to or
    assigns to a table other than the display that it does not declare; and otherwise, and only then, it
    links. -/
theorem outcome_of_link {n : Node} {t : Text} (hn : n.WellNamed) (h : compile n = .ok t) :
    ((∃ f words, link n = .error (.assembly f) ∧ f.cause = .imageOverflow words imageDepth) ↔
      imageDepth < n.footprint) ∧
    ((∃ f x, link n = .error (.assembly f) ∧ f.cause = .unresolvedSymbol x) ↔
      n.footprint ≤ imageDepth ∧ n.Open) ∧
    ((∃ asm, link n = .ok asm) ↔ n.footprint ≤ imageDepth ∧ ¬ n.Open) := by
  obtain ⟨ns, last, ks, rfl, hcode, hbody, rfl⟩ := readable_of_compile h hn
  -- the words and the undefined names of the text are the footprint and the open names of the tree
  have houtcome := Layout.outcome_of_readable (readable_lines hcode hbody)
  have hopen := hcode.undefined_iff
  rw [hcode.statements_program hbody, hcode.words_program, ← Node.footprint_program] at houtcome
  rw [← Node.open_program] at hopen
  have hfault : ∀ f, link (.program ns) = .error (.assembly f) ↔
      assemble (Text.unlines (Streams.empty.extend (Node.program ns).emission).lines) = .error f := by
    intro f
    rw [link, h]
    simp only
    split <;> simp_all
  have hlink : ∀ asm, link (.program ns) = .ok asm ↔
      assemble (Text.unlines (Streams.empty.extend (Node.program ns).emission).lines) = .ok asm := by
    intro asm
    rw [link, h]
    simp only
    split <;> simp_all
  simp only [hfault, hlink]
  -- the assembly ends in one way, which excludes the two others
  rcases houtcome with
    ⟨hover, f, k, hf, hcause⟩ | ⟨hfit, ⟨hundefined, f, x, hf, hcause⟩ | ⟨hall, asm, hok⟩⟩
  · simp [hf, hcause, hover, Nat.not_le.2 hover]
  · simp [hf, hcause, hfit, hopen.1 hundefined]
  · have hclosed : ¬ (Node.program ns).Open := fun ho => by
      obtain ⟨x, hx, hnot⟩ := hopen.2 ho
      exact hnot (hall x hx)
    simp [hok, hfit, hclosed]

/-- A table whose first declaration alone does not fit, a variable that is assigned to behind its use, one
    that is a statement of its own and never assigned to, and a store to the display. -/
def declaredLate : Node :=
  .program [.tableInit "t".toList "300".toList ['1'],
    .whileLoop (.binary .lt (.ident "x".toList) (.intLit ['2']))
      (.block [.assign "x".toList (.intLit ['3'])]),
    .exprStmt (.ident "y".toList),
    .assignAt screenName (.intLit ['0']) (.ident "x".toList),
    .tableInit "t".toList ['4'] ['2']]

theorem outcome_of_declaredLate :
    declaredLate.footprint = 42 ∧ ¬ declaredLate.Open ∧ ∃ asm, link declaredLate = .ok asm := by
  have hfootprint : declaredLate.footprint = 42 := by decide +kernel
  have hclosed : ¬ declaredLate.Open := by decide +kernel
  have hok : (compile declaredLate).toOption.isSome = true := by decide +kernel
  cases hc : compile declaredLate with
  | error fault => rw [hc] at hok; cases hok
  | ok t =>
    refine ⟨hfootprint, hclosed, (outcome_of_link (by decide) hc).2.2.2 ⟨?_, hclosed⟩⟩
    rw [hfootprint]
    decide

end Minicore
