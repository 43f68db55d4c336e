/-
RegAsm.Proofs.History — what an assembler does does not depend on what it did before.

One assembler serves any number of calls.  A call can end in many places: at a text that
cannot be read, at a statement in the middle of the program, at its end for want of a
label, or at a writer that refuses the image.  Each leaves another state behind, and none
of it is seen by the next call: a call gives what it gives on a fresh assembler, and the
assembler shows the last run that was started.

1. Calls.
2. One call.
3. Any calls in a row.
-/
import Mathlib
import RegAsm.DebugMap.Basic
import RegAsm.Proofs.Reset

namespace RegAsm

/-! ## 1. Calls -/

/-- A call of an assembler.  A writer is given by its state. -/
inductive Call (ω : Type) where
  /-- Assemble a source text. -/
  | source (text : String)
  /-- Assemble a program. -/
  | program (statements : List Statement)
  /-- Assemble a source text and hand the image to a writer. -/
  | into (w : ω) (text : String)

/-- What a call gives back. -/
inductive Outcome (ω : Type) where
  | image (result : Except AssemblyError Image)
  /-- With the writer afterwards and all that it was passed. -/
  | handed (result : Except AssemblyError Unit) (w : ω) (passed : List Image)

section Writers

variable {ω : Type} (write : Image → ω → Option String × ω)

/-- The writer with a record of what it is passed, refused or not. -/
def recording (image : Image) (w : ω × List Image) : Option String × ω × List Image :=
  ((write image w.1).1, (write image w.1).2, w.2 ++ [image])

/-- What a writer's answer makes of a call. -/
def verdict : Option String → Except AssemblyError Unit
  | none => .ok ()
  | some reason => .error (.write reason)

namespace Call

/-- Whether a call starts a run: it has a program, or a text that can be read. -/
def parses : Call ω → Bool
  | .source text => (parse text).isOk
  | .program _ => true
  | .into _ text => (parse text).isOk

/-- What a fresh assembler makes of the text or program of a call. -/
def assembled : Call ω → Except AssemblyError Image
  | .source text => (({} : Assembler).assemble text).1
  | .program statements => (({} : Assembler).assembleProgram statements).1
  | .into _ text => (({} : Assembler).assemble text).1

/-- Makes a call.  A writer is watched from here on. -/
def perform : Call ω → Assembler → Outcome ω × Assembler
  | .source text, a => (.image (a.assemble text).1, (a.assemble text).2)
  | .program statements, a =>
    (.image (a.assembleProgram statements).1, (a.assembleProgram statements).2)
  | .into w text, a =>
    let answer := a.assembleInto (recording write) text (w, [])
    (.handed answer.1 answer.2.1.1 answer.2.1.2, answer.2.2)

end Call

/-- Makes calls one after the other. -/
def Assembler.session : List (Call ω) → Assembler → List (Outcome ω) × Assembler
  | [], a => ([], a)
  | c :: calls, a =>
    let answer := session calls (c.perform write a).2
    ((c.perform write a).1 :: answer.1, answer.2)

end Writers

/-! ## 2. One call -/

/-- Two assemblers show the same labels, the same places and the same size. -/
structure Assembler.ShowsSame (a b : Assembler) : Prop where
  symbols : a.symbols = b.symbols
  layouts : a.layouts = b.layouts
  size : ∀ source, (a.debugMap source).size = (b.debugMap source).size

namespace Assembler

theorem ShowsSame.refl (a : Assembler) : a.ShowsSame a := ⟨rfl, rfl, fun _ => rfl⟩

theorem ShowsSame.trans {a b c : Assembler} (hab : a.ShowsSame b) (hbc : b.ShowsSame c) :
    a.ShowsSame c where
  symbols := hab.symbols.trans hbc.symbols
  layouts := hab.layouts.trans hbc.layouts
  size := fun source => (hab.size source).trans (hbc.size source)

/-- Whatever two assemblers did before, a program brings them together. -/
theorem showsSame_assembleProgram (a b : Assembler) (program : List Statement) :
    (a.assembleProgram program).2.ShowsSame (b.assembleProgram program).2 := by
  rw [assembleProgram_eq_first, assembleProgram_eq_first]
  exact ⟨rfl, rfl, fun _ => rfl⟩

theorem assembleProgram_fst (a b : Assembler) (program : List Statement) :
    (a.assembleProgram program).1 = (b.assembleProgram program).1 := by
  rw [assembleProgram_eq_first, assembleProgram_eq_first]

theorem assemble_fst (a b : Assembler) (text : String) :
    (a.assemble text).1 = (b.assemble text).1 := by
  unfold assemble
  cases parse text with
  | error e => rfl
  | ok program => exact a.assembleProgram_fst b program

/-- A text that cannot be read leaves the assembler alone; any other starts it anew. -/
theorem assemble_snd (a : Assembler) (text : String) :
    (a.assemble text).2.ShowsSame
      (if (parse text).isOk then (({} : Assembler).assemble text).2 else a) := by
  unfold assemble
  cases parse text with
  | error e => exact .refl a
  | ok program => exact a.showsSame_assembleProgram {} program

/-- A run that fails leaves no image, one that succeeds leaves its own. -/
theorem code_assembleProgram (a : Assembler) (program : List Statement) :
    (a.assembleProgram program).2.last.code =
      (a.assembleProgram program).1.toOption.getD #[] := by
  rw [assembleProgram_eq_first]
  show (RegAsm.assembleProgram program).2.code =
    ((RegAsm.assembleProgram program).1.mapError AssemblyError.program).toOption.getD #[]
  rw [RegAsm.assembleProgram_eq]
  cases Run.emitAll program {} with
  | error e => rfl
  | ok r =>
    simp only
    split <;> rfl

theorem code_assemble {a : Assembler} {text : String} (h : (parse text).isOk = true) :
    (a.assemble text).2.last.code = (a.assemble text).1.toOption.getD #[] := by
  unfold assemble
  cases hparse : parse text with
  | error e => rw [hparse] at h; cases h
  | ok program => exact a.code_assembleProgram program

section Writers

variable {ω : Type} (write : Image → ω → Option String × ω)

theorem assembleInto_of_error {a : Assembler} {text : String} {e : AssemblyError}
    (h : (a.assemble text).1 = .error e) (w : ω) :
    a.assembleInto write text w = (.error e, w, (a.assemble text).2) := by
  unfold assembleInto
  generalize a.assemble text = answer at h
  obtain ⟨result, b⟩ := answer
  cases h
  rfl

/-- The image is written once, and the answer decides. -/
theorem assembleInto_of_ok {a : Assembler} {text : String} {image : Image}
    (h : (a.assemble text).1 = .ok image) (w : ω) :
    a.assembleInto write text w =
      (verdict (write image w).1, (write image w).2, (a.assemble text).2) := by
  unfold assembleInto
  generalize a.assemble text = answer at h
  obtain ⟨result, b⟩ := answer
  cases h
  simp only
  generalize write image w = answer
  obtain ⟨refusal, w'⟩ := answer
  cases refusal <;> rfl

end Writers

end Assembler

namespace Call

variable {ω : Type} (write : Image → ω → Option String × ω)

theorem perform_source (text : String) (a : Assembler) :
    (Call.source text).perform write a = (.image (a.assemble text).1, (a.assemble text).2) := by
  rw [perform]

/-- A writer is passed the image and nothing else, if there is one. -/
theorem perform_into_of_ok {a : Assembler} {text : String} {image : Image}
    (h : (a.assemble text).1 = .ok image) (w : ω) :
    (Call.into w text).perform write a =
      (.handed (verdict (write image w).1) (write image w).2 [image], (a.assemble text).2) := by
  simp only [perform, Assembler.assembleInto_of_ok _ h]
  rfl

theorem perform_into_of_error {a : Assembler} {text : String} {e : AssemblyError}
    (h : (a.assemble text).1 = .error e) (w : ω) :
    (Call.into w text).perform write a = (.handed (.error e) w [], (a.assemble text).2) := by
  simp only [perform, Assembler.assembleInto_of_error _ h]

/-- A writer does not touch the assembler. -/
theorem perform_into_snd (w : ω) (text : String) (a : Assembler) :
    ((Call.into w text).perform write a).2 = (a.assemble text).2 := by
  cases h : (a.assemble text).1 with
  | error e => rw [perform_into_of_error write h]
  | ok image => rw [perform_into_of_ok write h]

/-- A call gives what it gives on a fresh assembler. -/
theorem perform_fst (c : Call ω) (a : Assembler) :
    (c.perform write a).1 = (c.perform write {}).1 := by
  cases c with
  | source text => exact congrArg Outcome.image (a.assemble_fst {} text)
  | program statements => exact congrArg Outcome.image (a.assembleProgram_fst {} statements)
  | into w text =>
    cases h : (({} : Assembler).assemble text).1 with
    | error e =>
      rw [perform_into_of_error write h,
        perform_into_of_error write ((a.assemble_fst {} text).trans h)]
    | ok image =>
      rw [perform_into_of_ok write h, perform_into_of_ok write ((a.assemble_fst {} text).trans h)]

/-- A call that starts a run leaves what it leaves on a fresh assembler, any other the
assembler as it was. -/
theorem perform_snd (c : Call ω) (a : Assembler) :
    (c.perform write a).2.ShowsSame (if c.parses then (c.perform write {}).2 else a) := by
  cases c with
  | source text => exact a.assemble_snd text
  | program statements => exact a.showsSame_assembleProgram {} statements
  | into w text =>
    rw [perform_into_snd, perform_into_snd]
    exact a.assemble_snd text

/-- The run of a call that starts one has an image exactly if it succeeds. -/
theorem code_perform {c : Call ω} (h : c.parses = true) :
    (c.perform write {}).2.last.code = c.assembled.toOption.getD #[] := by
  cases c with
  | program statements => exact Assembler.code_assembleProgram {} statements
  | source text =>
    rw [parses] at h
    rw [perform_source, assembled, Assembler.code_assemble h]
  | into w text =>
    rw [parses] at h
    rw [assembled, ← Assembler.code_assemble h, perform_into_snd]

/-- The size that is shown is zero if the run failed or there are no bytes. -/
theorem size_perform_eq_zero_iff {c : Call ω} (h : c.parses = true) (source : String) :
    ((c.perform write {}).2.debugMap source).size = 0 ↔
      (∃ e, c.assembled = .error e) ∨ c.assembled = .ok #[] := by
  have hsize : ((c.perform write {}).2.debugMap source).size =
      (c.perform write {}).2.last.code.size := rfl
  rw [hsize, code_perform write h]
  cases c.assembled with
  | error e => simp [Except.toOption]
  | ok image => simp [Except.toOption]

end Call

/-! ## 3. Any calls in a row -/

section Session

variable {ω : Type} (write : Image → ω → Option String × ω)

theorem Assembler.session_fst (calls : List (Call ω)) (a : Assembler) :
    (a.session write calls).1 = calls.map fun c => (c.perform write {}).1 := by
  induction calls generalizing a with
  | nil => rfl
  | cons c calls ih =>
    simp only [session, List.map_cons, ih]
    rw [c.perform_fst write a]

/-- An assembler shows the last call that started a run, or what it showed before. -/
theorem Assembler.session_snd (calls : List (Call ω)) (a : Assembler) :
    (∀ c ∈ calls, c.parses = false) ∧ (a.session write calls).2.ShowsSame a ∨
      ∃ (before : List (Call ω)) (c : Call ω) (after : List (Call ω)),
        calls = before ++ c :: after ∧ c.parses = true ∧ (∀ c' ∈ after, c'.parses = false) ∧
        (a.session write calls).2.ShowsSame (c.perform write {}).2 := by
  induction calls generalizing a with
  | nil => exact .inl ⟨List.forall_mem_nil _, .refl a⟩
  | cons c calls ih =>
    have hafter : (a.session write (c :: calls)).2 =
        ((c.perform write a).2.session write calls).2 := rfl
    rw [hafter]
    rcases ih (c.perform write a).2 with
      ⟨hnone, hsame⟩ | ⟨before, last, after, rfl, hlast⟩
    · -- What is shown is what the first call left.
      have hshows := hsame.trans (c.perform_snd write a)
      cases hparses : c.parses with
      | false =>
        rw [hparses] at hshows
        exact .inl ⟨List.forall_mem_cons.mpr ⟨hparses, hnone⟩, hshows⟩
      | true =>
        rw [hparses] at hshows
        exact .inr ⟨[], c, calls, rfl, hparses, hnone, hshows⟩
    · exact .inr ⟨c :: before, last, after, rfl, hlast⟩

/-- What an assembler does does not depend on what it did before.  Each call gives what it
gives on a fresh assembler.  A writer is passed the image in one piece if there is one,
whether it then refuses or not, and else nothing.  Afterwards the assembler shows what a
fresh one shows after the last call that started a run, and what it showed at the start if
there was none; the size is zero exactly if that run failed or gave no bytes. -/
theorem session_independent (calls : List (Call ω)) (a : Assembler) :
    (a.session write calls).1 = calls.map (fun c => (c.perform write {}).1) ∧
    (∀ (w : ω) (text : String),
      (∀ image, (({} : Assembler).assemble text).1 = .ok image →
        ((Call.into w text).perform write {}).1 =
          .handed (verdict (write image w).1) (write image w).2 [image]) ∧
      ∀ e, (({} : Assembler).assemble text).1 = .error e →
        ((Call.into w text).perform write {}).1 = .handed (.error e) w []) ∧
    ((∀ c ∈ calls, c.parses = false) ∧ (a.session write calls).2.ShowsSame a ∨
      ∃ (before : List (Call ω)) (c : Call ω) (after : List (Call ω)),
        calls = before ++ c :: after ∧ c.parses = true ∧ (∀ c' ∈ after, c'.parses = false) ∧
        (a.session write calls).2.ShowsSame (c.perform write {}).2 ∧
        ∀ source, ((a.session write calls).2.debugMap source).size = 0 ↔
          (∃ e, c.assembled = .error e) ∨ c.assembled = .ok #[]) := by
  refine ⟨a.session_fst write calls, fun w text => ⟨fun image h => ?_, fun e h => ?_⟩, ?_⟩
  · rw [Call.perform_into_of_ok write h]
  · rw [Call.perform_into_of_error write h]
  · rcases a.session_snd write calls with
      ⟨hnone, hsame⟩ | ⟨before, c, after, hcalls, hparses, hafter, hsame⟩
    · exact .inl ⟨hnone, hsame⟩
    · refine .inr ⟨before, c, after, hcalls, hparses, hafter, hsame, fun source => ?_⟩
      rw [hsame.size source]
      exact Call.size_perform_eq_zero_iff write hparses source

end Session

end RegAsm
