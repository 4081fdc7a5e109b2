/-
  OUTPUT of a run — what a run of the compiler leaves where its image goes.

  Problem: an image that is there stays until a better one can take its place.  A run has several stages
  that can fail, it writes one file or two, and the second path is made from the first.

  1. **Program** — `Session.leaves s fs`: the exit code and the file system after a session; what it prints
     does not matter here.  The stages of the compiler follow one another (`leaves_of_code?`,
     `leaves_of_generated`), and each has its own way to end the run.

  2. **Specification** — `FileSystem.image?`: the image of the tree in a file, if there is a tree and it
     builds.  Then the run ends with 0 and the image is at the target; any other run ends with 1 and
     leaves the target as it was — EXCEPT that the assembly text is written before it is assembled.  It
     goes to the path of the target with the extension `asm`.  If that leads to the target itself, and
     the text does not assemble, the text has taken the place of the image (`target_of_session`,
     `target_overwritten`).

  3. **Any file system, any reader** — the input and the target may be anywhere, in the root or below the
     working directory, behind links, and one and the same file.  How documents are read is a parameter:
     nothing here depends on which texts are documents.
-/
import Minicore.Command.Programs
import Minicore.Proofs.Command.Writing

namespace Minicore

/-! ## What a session leaves -/

namespace Session

/-- The exit code and the file system after a session. -/
def leaves (s : Session) (fs : FileSystem) : Nat × FileSystem := ((s.runOn fs).code, (s.runOn fs).files)

variable (fs : FileSystem) (next : Session) (path t : Text)

@[simp] theorem leaves_exit (code : Nat) : (exit code).leaves fs = (code, fs) := rfl

@[simp] theorem leaves_print : (print t next).leaves fs = next.leaves fs := rfl

@[simp] theorem leaves_line : (line t next).leaves fs = next.leaves fs := leaves_print fs next _

@[simp] theorem leaves_failWith : (failWith t).leaves fs = (1, fs) := by
  rw [failWith, leaves_print, leaves_exit]

@[simp] theorem leaves_read (go : Option Text → Session) :
    (read path go).leaves fs = (go (fs.read path)).leaves fs := rfl

@[simp] theorem leaves_printAll (parts : List Text) : (printAll parts next).leaves fs = next.leaves fs := by
  induction parts with
  | nil => rfl
  | cons part parts ih =>
    rw [printAll, List.foldr_cons, leaves_print]
    exact ih

/-- A write that works, and what follows. -/
theorem leaves_write {fs fs' : FileSystem} {path t : Text} (h : fs.write path t = some fs')
    (go : Bool → Session) : (write path t go).leaves fs = (go true).leaves fs' := by
  simp only [leaves, runOn, h]

end Session

/-! ## What is in a file -/

/-- Where the assembly text goes. -/
def Options.assemblyPath (o : Options) : Text := Path.withExtension o.target "asm".toList

/-- The tree that the file presents. -/
def FileSystem.tree? (fs : FileSystem) (read : DocumentReader) (path : Text) : Option Node :=
  (fs.read path).bind (Node.readWith read)

/-- The assembly text of the tree that the file presents. -/
def FileSystem.code? (fs : FileSystem) (read : DocumentReader) (path : Text) : Option Text :=
  (fs.tree? read path).bind fun tree => (compile tree).toOption

/-- The image of the tree that the file presents. -/
def FileSystem.image? (fs : FileSystem) (read : DocumentReader) (path : Text) : Option Text :=
  (fs.tree? read path).bind fun tree => (build tree).toOption

variable {read : DocumentReader} {o : Options} {fs : FileSystem} {path code : Text}

/-- The image is that of the code. -/
theorem FileSystem.image?_eq : fs.image? read path =
    (fs.code? read path).bind fun code => (assemble code).toOption.map Assembly.image := by
  unfold image? code? build link
  cases fs.tree? read path with
  | none => rfl
  | some tree =>
    simp only [Option.bind_some]
    cases compile tree with
    | error e => rfl
    | ok code =>
      simp only [Except.toOption, Option.bind_some]
      cases assemble code <;> rfl

/-! ## The stages of the compiler -/

/-- The last stage puts the image to its place. -/
theorem leaves_finish (h : fs.Writable o.target) (a : Assembly) :
    ∃ fs', (Session.finish o a).leaves fs = (0, fs') ∧ fs'.at? o.target = some (.text a.image) := by
  obtain ⟨fs', hwrite, hother⟩ := h.write a.image
  refine ⟨fs', ?_, by rw [(hother _ h).2, if_pos rfl]⟩
  rw [Session.finish, Session.leaves_line, Session.leaves_write hwrite]
  cases o.dump <;> rfl

/-- Code that does not assemble leaves everything as it was. -/
theorem leaves_of_error {e : Fault} (h : assemble code = .error e) :
    (assembleGenerated o code).leaves fs = (1, fs) := by
  rw [assembleGenerated, Session.leaves_line, h]
  exact Session.leaves_failWith fs _

/-- Code that assembles becomes an image. -/
theorem leaves_of_ok {a : Assembly} (h : assemble code = .ok a) (hw : fs.Writable o.target) :
    ∃ fs', (assembleGenerated o code).leaves fs = (0, fs') ∧
      fs'.at? o.target = some (.text a.image) := by
  obtain ⟨fs', hleaves, hat⟩ := leaves_finish hw a
  refine ⟨fs', ?_, hat⟩
  rw [assembleGenerated, Session.leaves_line, h]
  simpa only [Session.leaves_printAll, Session.leaves_line] using hleaves

/-- The stages in front of the assembler: without code nothing is written. -/
theorem leaves_of_code? : (compilerSession read o).leaves fs =
    match fs.code? read o.input with
    | none => (1, fs)
    | some code =>
      if o.asm then (Session.write o.assemblyPath code fun
        | false => .failWith (Fault.errorLine (Cause.message (.unwritableFile o.assemblyPath)))
        | true => assembleGenerated o code).leaves fs
      else (assembleGenerated o code).leaves fs := by
  simp only [compilerSession, Session.leaves_line, Session.leaves_read, FileSystem.code?, FileSystem.tree?]
  cases fs.read o.input with
  | none => rfl
  | some source =>
    simp only [Option.bind_some]
    cases Node.readWith read source with
    | none => rfl
    | some tree =>
      simp only [Option.bind_some, compile]
      cases Streams.ofProgram tree with
      | error e => rfl
      | ok streams =>
        simp only [Except.map, Except.toOption, Session.leaves_line]
        split <;> rfl

/-- **Before assembling**: the target is as it was, unless the assembly text has gone to it; without
    that text everything is as it was. -/
theorem leaves_of_generated (hcode : fs.code? read o.input = some code)
    (htarget : fs.Writable o.target) (hasm : o.asm = true → fs.Writable o.assemblyPath) :
    ∃ fs', (compilerSession read o).leaves fs = (assembleGenerated o code).leaves fs' ∧
      (o.asm = false → fs' = fs) ∧ fs'.Writable o.target ∧
      fs'.at? o.target = if o.asm = true ∧ fs.location? o.assemblyPath = fs.location? o.target
        then some (.text code) else fs.at? o.target := by
  rw [leaves_of_code?, hcode]
  cases hflag : o.asm with
  | false => exact ⟨fs, rfl, fun _ => rfl, htarget, by rw [if_neg fun h => Bool.false_ne_true h.1]⟩
  | true =>
    obtain ⟨fs', hwrite, hother⟩ := (hasm hflag).write code
    obtain ⟨hwritable, hat⟩ := hother _ htarget
    refine ⟨fs', Session.leaves_write hwrite _, nofun, hwritable, ?_⟩
    simp only [hat, true_and]

/-! ## The whole -/

/-- **Output of a run.**  Let a command line of the compiler name paths under which files can be written.
    If the input has an image, the run ends with 0 and the target holds it.  Otherwise the run ends with 1
    and the target is as it was before, unless there is code, the assembly text was asked for, and the
    path of the assembly text leads to where the target's does; in that one case the target holds the
    assembly text.  Without code, or if the assembly text was not asked for, such a run changes nothing
    at all. -/
theorem target_of_session {read : DocumentReader} {args : List Text} {o : Options} {fs : FileSystem}
    {r : RunResult FileSystem} (hargs : Arguments.read .compiler args = .run o)
    (hrun : (sessionWith read .compiler args).runOn fs = r)
    (htarget : fs.Writable o.target) (hasm : o.asm = true → fs.Writable o.assemblyPath) :
    (∀ image, fs.image? read o.input = some image →
      r.code = 0 ∧ r.files.at? o.target = some (.text image)) ∧
    (fs.image? read o.input = none → r.code = 1 ∧
      (fs.code? read o.input = none ∨ o.asm = false → r.files = fs) ∧
      (¬ (o.asm = true ∧ fs.location? o.assemblyPath = fs.location? o.target) →
        r.files.at? o.target = fs.at? o.target) ∧
      (o.asm = true ∧ fs.location? o.assemblyPath = fs.location? o.target →
        ∀ code, fs.code? read o.input = some code → r.files.at? o.target = some (.text code))) := by
  have hleaves : (compilerSession read o).leaves fs = (r.code, r.files) := by
    rw [← hrun, sessionWith, hargs]
    rfl
  rw [FileSystem.image?_eq]
  -- by the last stage that the run reaches
  cases hcode : fs.code? read o.input with
  | none =>
    rw [leaves_of_code?, hcode, Prod.mk.injEq] at hleaves
    obtain ⟨hexit, hfiles⟩ := hleaves
    refine ⟨nofun, fun _ => ⟨hexit.symm, fun _ => hfiles.symm, fun _ => ?_, fun _ => nofun⟩⟩
    rw [← hfiles]
  | some code =>
    obtain ⟨fs', hgenerated, hsame, hwritable, hat⟩ := leaves_of_generated hcode htarget hasm
    rw [hleaves] at hgenerated
    rw [Option.bind_some]
    cases hassemble : assemble code with
    | error e =>
      rw [leaves_of_error hassemble, Prod.mk.injEq] at hgenerated
      obtain ⟨hexit, hfiles⟩ := hgenerated
      rw [← hfiles] at hat
      refine ⟨nofun, fun _ => ⟨hexit, fun h => ?_, fun h => ?_, fun h c hc => ?_⟩⟩
      · rw [hfiles]
        exact hsame (h.resolve_left nofun)
      · rw [hat, if_neg h]
      · cases hc
        rw [hat, if_pos h]
    | ok a =>
      obtain ⟨fs'', hok, himage⟩ := leaves_of_ok hassemble hwritable
      rw [hok, Prod.mk.injEq] at hgenerated
      obtain ⟨hexit, hfiles⟩ := hgenerated
      refine ⟨fun image h => ?_, nofun⟩
      cases h
      exact ⟨hexit, hfiles ▸ himage⟩

/-- A program that reads a variable without declaring it, and an older image under the name that its
    assembly text would have. -/
def FileSystem.undeclaring : FileSystem := .ofFiles
  ⟨[(["p".toList], .text "[program, [[scalar_init, x, [ident, y]]]]".toList),
    (["x.asm".toList], .text "WIDTH=8;".toList)]⟩

/-- The call that builds the program over the older image and asks for the assembly text. -/
def overwriting : List Text := ["p".toList, "-o".toList, "x.asm".toList, "--asm".toList]

/-- The image is gone although nothing was built: in its place stands the text that did not assemble. -/
theorem target_overwritten :
    (FileSystem.undeclaring.at? "x.asm".toList = some (.text "WIDTH=8;".toList) ∧
      FileSystem.undeclaring.image? Value.ofText? "p".toList = none) ∧
    ((session .compiler overwriting).runOn .undeclaring).code = 1 ∧
    ((session .compiler overwriting).runOn .undeclaring).files.at? "x.asm".toList =
      some (.text ("    MOV R1, #var_y\n    LDRB R0, [R1]\n    MOV R1, #var_x\n    STRB R0, [R1]\n" ++
        "halt\n    B halt\n\nconst_1 DCB 0x1\nconst_0 DCB 0x0\nvar_x DCB 0x0\n").toList) := by
  have hargs : Arguments.read .compiler overwriting =
      .run ⟨"p".toList, some "x.asm".toList, true, false⟩ := by decide +kernel
  have hwritable : FileSystem.undeclaring.Writable "x.asm".toList := fun t => ⟨_, rfl⟩
  have himage : FileSystem.undeclaring.image? Value.ofText? "p".toList = none := by decide +kernel
  have hend := (target_of_session hargs rfl hwritable fun _ => hwritable).2 himage
  exact ⟨⟨by decide +kernel, himage⟩, hend.1, hend.2.2.2 ⟨rfl, rfl⟩ _ (by decide +kernel)⟩

end Minicore
