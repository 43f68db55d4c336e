/-
RegAsm.Proofs.Reset — a run over a program does not see what the run before it left.

A run starts by clearing its state, and of what the last run left only the reports
stay.  No step reads a report: with others in front of its own, each does what it does
without them.  So a run that follows others is the first run over its program, with the
reports of the others in front.

1. Reports in front.
2. Single steps.
3. Whole runs.
-/
import RegAsm.Proofs.Placement

namespace RegAsm

open Machine
open Source (Position)

namespace Run

/-! ## 1. Reports in front -/

/-- A run with earlier reports in front of its own. -/
def following (log : Array Event) (r : Run) : Run := { r with events := log ++ r.events }

/-- What a step gives, with earlier reports in front. -/
def outcomeFollowing (log : Array Event) (outcome : Except (Fault × Run) Run) :
    Except (Fault × Run) Run :=
  (outcome.map (following log)).mapError fun e => (e.1, e.2.following log)

/-- A cleared state is that of a first run, but for the reports. -/
theorem reset_eq (r : Run) : r.reset = ({} : Run).following r.events := by
  simp [reset, following]

theorem reset_start : reset {} = {} := by
  simp [reset]

variable (log : Array Event)

theorem report_following (r : Run) (e : Event) :
    (r.following log).report e = (r.report e).following log := by
  simp [report, following]

/-! ## 2. Single steps -/

theorem settle_following (r : Run) (ref : Reference) :
    (r.following log).settle ref = (r.settle ref).following log := by
  have htable : (r.following log).table = r.table := rfl
  rw [settle, settle, htable]
  cases r.table.find? ref.label with
  | some address => simp [following]
  | none => rfl

theorem patch_following (r : Run) : (r.following log).patch = r.patch.following log := by
  have hsettle : ∀ (refs : List Reference) (r : Run),
      refs.foldl settle (r.following log) = (refs.foldl settle r).following log := by
    intro refs
    induction refs with
    | nil => exact fun _ => rfl
    | cons ref rest ih =>
      intro r
      rw [List.foldl_cons, settle_following, ih, List.foldl_cons]
  rw [patch, patch, ← Array.foldl_toList, ← Array.foldl_toList]
  exact hsettle r.pending.toList { r with pending := #[] }

theorem refer_following (r : Run) (label : String) (pos : Position) :
    (r.following log).refer label pos = (r.refer label pos).following log := by
  have htable : (r.following log).table = r.table := rfl
  rw [refer, refer, htable]
  cases r.table.find? label with
  | some address => rfl
  | none => simp [following, offset]

theorem writeField_following (r : Run) (f : Field) :
    (r.following log).writeField f = (r.writeField f).following log := by
  cases f with
  | byte b => rfl
  | value v size => rfl
  | address label pos => exact r.refer_following log label pos

theorem writeFields_following (fields : List Field) (r : Run) :
    fields.foldl writeField (r.following log) = (fields.foldl writeField r).following log := by
  induction fields generalizing r with
  | nil => rfl
  | cons f rest ih => rw [List.foldl_cons, writeField_following, ih, List.foldl_cons]

theorem writeEncoding_following (r : Run) (s : Statement) (e : Encoding) :
    (r.following log).writeEncoding s e = (r.writeEncoding s e).following log := by
  have hfields : e.fields.foldl writeField ((r.following log).append e.head) =
      (e.fields.foldl writeField (r.append e.head)).following log :=
    writeFields_following log e.fields (r.append e.head)
  unfold writeEncoding
  simp only [hfields]
  cases e.mode with
  | some mode => simp [report, following, offset]
  | none => rfl

theorem declare_following (r : Run) (name : String) (pos : Position) :
    (r.following log).declare name pos = outcomeFollowing log (r.declare name pos) := by
  have htable : (r.following log).table.declare name (r.following log).offset =
      r.table.declare name r.offset := rfl
  rw [declare, declare, htable]
  cases r.table.declare name r.offset with
  | error e => rfl
  | ok table => simp [outcomeFollowing, Except.map, Except.mapError, following, offset]

theorem repeatedly_following {f : Run → Except (Fault × Run) Run}
    (h : ∀ r, f (r.following log) = outcomeFollowing log (f r)) (n : Nat) (r : Run) :
    repeatedly f n (r.following log) = outcomeFollowing log (repeatedly f n r) := by
  induction n generalizing r with
  | zero => rfl
  | succ n ih =>
    rw [repeatedly, repeatedly, h]
    cases f r with
    | ok r' => exact ih r'
    | error e => rfl

/-- One statement is placed as without the earlier reports. -/
theorem emit_following (s : Statement) (r : Run) :
    emit s (r.following log) = outcomeFollowing log (emit s r) := by
  induction s generalizing r with
  | label name pos =>
    simp only [emit, patch_following]
    exact declare_following log
      { r.patch.closeRegion with table := r.patch.closeRegion.table.toGlobal } name pos
  | localLabel name pos =>
    exact declare_following log { r with table := r.table.pushNamed name } name pos
  | instruction m operands pos =>
    simp only [emit]
    cases Encoding.of m operands with
    | error f => rfl
    | ok e => exact congrArg Except.ok (r.writeEncoding_following log _ e)
  | data items pos =>
    simp only [emit]
    cases dataBytes items with
    | error f => rfl
    | ok bytes => exact congrArg Except.ok (report_following log (r.append bytes) _)
  | times count body pos ih =>
    rw [emit, emit]
    exact repeatedly_following log ih count.toNat r
  | bareTimes count pos => rfl
  | other tag m operands pos => rfl

/-! ## 3. Whole runs -/

theorem emitAll_following (program : List Statement) (r : Run) :
    emitAll program (r.following log) = outcomeFollowing log (emitAll program r) := by
  induction program generalizing r with
  | nil => rfl
  | cons s rest ih =>
    rw [emitAll, emitAll, emit_following]
    cases emit s r with
    | ok r' => exact ih r'
    | error e => rfl

theorem finish_following (r : Run) : (r.following log).finish = r.finish.following log := by
  rw [finish, patch_following, finish]
  rfl

end Run

/-- A first run in the steps that it takes. -/
theorem assembleProgram_eq (program : List Statement) :
    assembleProgram program =
      match Run.emitAll program {} with
      | .error (f, r) => (.error (.fault f), r.withoutCode)
      | .ok r =>
        if r.finish.undefined.isEmpty then
          (.ok r.finish.code,
            r.finish.report (.completed r.finish.code.size r.finish.declared.size))
        else (.error (.undefined r.finish.undefined.toList), r.finish.withoutCode) := by
  rewrite [assembleProgram, Run.assemble, Run.reset_start]
  rfl

/-- Whatever state it starts from, a run gives what a first run over the program gives,
and leaves what that leaves behind the reports that were there. -/
theorem Run.assemble_eq (r : Run) (program : List Statement) :
    r.assemble program =
      ((assembleProgram program).1, (assembleProgram program).2.following r.events) := by
  rw [assembleProgram_eq, Run.assemble, reset_eq, emitAll_following]
  cases emitAll program {} with
  | error e => rfl
  | ok r' =>
    have hundefined : (r'.finish.following r.events).undefined = r'.finish.undefined := rfl
    simp only [outcomeFollowing, Except.map, Except.mapError, finish_following, hundefined]
    cases r'.finish.undefined.isEmpty with
    | true => simp [report, following]
    | false => rfl

/-- An assembler gives what the first run over a program gives, and keeps what that
leaves behind the reports of the runs before. -/
theorem Assembler.assembleProgram_eq_first (a : Assembler) (program : List Statement) :
    a.assembleProgram program =
      ((RegAsm.assembleProgram program).1.mapError .program,
        ⟨(RegAsm.assembleProgram program).2.following a.last.events⟩) := by
  rw [Assembler.assembleProgram, Run.assemble_eq]

theorem Assembler.assembleProgram_eq_ok {a a' : Assembler} {program : List Statement}
    {image : Image} (h : a.assembleProgram program = (.ok image, a')) :
    ∃ run, RegAsm.assembleProgram program = (.ok image, run) ∧
      a'.last = run.following a.last.events := by
  rw [assembleProgram_eq_first] at h
  cases hrun : RegAsm.assembleProgram program with
  | mk result run =>
    rw [hrun] at h
    cases result with
    | error e => simp [Except.mapError] at h
    | ok i =>
      simp only [Except.mapError, Prod.mk.injEq, Except.ok.injEq] at h
      obtain ⟨rfl, rfl⟩ := h
      exact ⟨run, rfl, rfl⟩

end RegAsm
