/-
RegAsm.Proofs.Relabeling — other names for the labels, other places for the text.

An image does not depend on what the labels of a program are called, as long as
different labels keep different names and local ones stay local, nor on where
its statements were written.  A relabeling gives other names and other places to
all that a program mentions.  Every step of a run commutes with it, so a run
over the relabeled program ends in the relabeled state: with the same bytes and
layouts, and with an error of the same kind if it fails
(`assembleProgram_relabel`).

1. Relabelings.
2. Tables of names.
3. Machine forms.
4. Steps of a run.
5. Whole runs.
6. Renamed labels.
-/
import Mathlib
import RegAsm.Proofs.Geometry

namespace RegAsm

open Machine
open Source (Position)

/-! ## 1. Relabelings -/

/-- Other names for labels and other places for what is written.  Different
names stay different, and the local ones stay local. -/
structure Relabeling where
  name : String → String
  place : Position → Position
  injective : Function.Injective name
  isLocalName_name : ∀ label, isLocalName (name label) = isLocalName label

section Parts

variable (c : Relabeling)

def OperandForm.relabel : OperandForm → OperandForm
  | .name label => .name (c.name label)
  | .indirectName label => .indirectName (c.name label)
  | form => form

def Operand.relabel (o : Operand) : Operand := ⟨o.form.relabel c, c.place o.pos⟩

/-- The statement under other names and at another place, through the bodies of
repetitions. -/
def Statement.relabel : Statement → Statement
  | .label name pos => .label (c.name name) (c.place pos)
  | .localLabel name pos => .localLabel (c.name name) (c.place pos)
  | .instruction m operands pos => .instruction m (operands.map (Operand.relabel c)) (c.place pos)
  | .data items pos => .data (items.map (Operand.relabel c)) (c.place pos)
  | .times count body pos => .times count body.relabel (c.place pos)
  | .bareTimes count pos => .bareTimes count (c.place pos)
  | .other tag m operands pos => .other tag m (operands.map (Operand.relabel c)) (c.place pos)

def Field.relabel : Field → Field
  | .address label pos => .address (c.name label) (c.place pos)
  | f => f

def Encoding.relabel (e : Encoding) : Encoding :=
  { e with fields := e.fields.map (Field.relabel c) }

/-- The fault under other names.  Only the forms of operands hold any. -/
def EncodingFault.relabel : EncodingFault → EncodingFault
  | .onlyInData form => .onlyInData (form.relabel c)
  | .noMode destination source => .noMode (destination.relabel c) (source.relabel c)
  | .notADatum form => .notADatum (form.relabel c)
  | f => f

def Symbol.relabel (s : Symbol) : Symbol := { s with name := c.name s.name }

/-- A scope with other names in it. -/
def Scope.relabel (s : Scope) : Scope := { s with symbols := s.symbols.map (Symbol.relabel c) }

/-- A local scope, which is named for its label. -/
def Scope.relabelLocal (s : Scope) : Scope := { s.relabel c with name := c.name s.name }

/-- The table under other names.  The global scope keeps its own. -/
def SymbolTable.relabel (t : SymbolTable) : SymbolTable :=
  { t with
    global := t.global.relabel c
    locals := t.locals.map (Scope.relabelLocal c) }

/-- The error under other names.  A name repeats only in the global scope. -/
def SymbolError.relabel : SymbolError → SymbolError
  | .duplicate name scope address => .duplicate (c.name name) scope address
  | .notFound name => .notFound (c.name name)

def Reference.relabel (r : Reference) : Reference :=
  { r with label := c.name r.label, pos := c.place r.pos }

def Event.relabel : Event → Event
  | .declared label address => .declared (c.name label) address
  | .patched label offset address => .patched (c.name label) offset address
  | .deferred label offset => .deferred (c.name label) offset
  | .emitted statement offset op mode => .emitted (statement.relabel c) offset op mode
  | .placed offset bytes => .placed offset bytes
  | .completed bytes symbols => .completed bytes symbols

def Fault.relabel : Fault → Fault
  | .encoding pos kind fault => .encoding (c.place pos) kind (fault.relabel c)
  | .duplicate pos error => .duplicate (c.place pos) (error.relabel c)

def ProgramError.relabel : ProgramError → ProgramError
  | .fault f => .fault (f.relabel c)
  | .undefined refs => .undefined (refs.map (Reference.relabel c))

/-- The state of a run under other names.  Bytes and layouts hold none. -/
def Run.relabel (r : Run) : Run :=
  { r with
    table := r.table.relabel c
    pending := r.pending.map (Reference.relabel c)
    declared := r.declared.map (Symbol.relabel c)
    undefined := r.undefined.map (Reference.relabel c)
    events := r.events.map (Event.relabel c) }

/-- What becomes of a run: its state, or a fault with the state it left. -/
def Run.relabelOutcome : Except (Fault × Run) Run → Except (Fault × Run) Run
  | .ok r => .ok (r.relabel c)
  | .error (f, r) => .error (f.relabel c, r.relabel c)

end Parts

variable {c : Relabeling}

/-! ## 2. Tables of names -/

theorem Relabeling.name_beq (c : Relabeling) (a b : String) :
    (c.name a == c.name b) = (a == b) := by
  rw [Bool.eq_iff_iff, beq_iff_eq, beq_iff_eq, c.injective.eq_iff]

namespace Scope

theorem find?_relabel (s : Scope) (name : String) :
    (s.relabel c).find? (c.name name) = s.find? name := by
  have hsame : (fun s : Symbol => (s.relabel c).name == c.name name) = (·.name == name) := by
    funext s
    exact c.name_beq s.name name
  rw [find?, relabel, Array.find?_map, Option.map_map]
  exact congrArg (fun p => (s.symbols.find? p).map Symbol.address) hsame

theorem find?_relabelLocal (s : Scope) (name : String) :
    (s.relabelLocal c).find? (c.name name) = s.find? name :=
  s.find?_relabel name

end Scope

namespace SymbolTable

/-- A name is found where it was found before. -/
theorem find?_relabel (t : SymbolTable) (name : String) :
    (t.relabel c).find? (c.name name) = t.find? name := by
  obtain ⟨global, locals, unnamed⟩ := t
  simp only [find?, relabel]
  induction locals with
  | nil => simp [Scope.find?_relabel]
  | cons scope outer ih =>
    rw [List.map_cons, List.cons_append, List.cons_append, List.findSome?_cons,
      List.findSome?_cons, Scope.find?_relabelLocal, ih]

/-- A label is declared in the global scope under its new name. -/
theorem declare_toGlobal_relabel (t : SymbolTable) (name : String) (address : UInt32) :
    (t.toGlobal.relabel c).declare (c.name name) address =
      ((t.toGlobal.declare name address).map (SymbolTable.relabel c)).mapError
        (SymbolError.relabel c) := by
  have hfind : (t.toGlobal.relabel c).current.find? (c.name name) =
      t.toGlobal.current.find? name := t.global.find?_relabel name
  rw [declare, declare, hfind]
  cases t.toGlobal.current.find? name with
  | some earlier => rfl
  | none =>
    simp [Except.map, Except.mapError, toGlobal, add, relabel, Scope.relabel, Symbol.relabel]

/-- A local label opens a scope of its own, where no other name is. -/
theorem declare_pushNamed (t : SymbolTable) (name : String) (address : UInt32) :
    (t.pushNamed name).declare name address =
      .ok { t with locals := ⟨name, #[⟨name, address⟩]⟩ :: t.locals } := rfl

end SymbolTable

/-! ## 3. Machine forms -/

@[simp]
theorem OperandForm.class?_relabel (form : OperandForm) :
    (form.relabel c).class? = form.class? := by
  cases form <;> rfl

@[simp]
theorem Field.width_relabel (f : Field) : (f.relabel c).width = f.width := by
  cases f <;> rfl

namespace Encoding

@[simp]
theorem widths_relabel (e : Encoding) : (e.relabel c).widths = e.widths := by
  simp [widths, relabel, Function.comp_def]

@[simp]
theorem length_relabel (e : Encoding) : (e.relabel c).length = e.length := by
  rw [length, widths_relabel]
  rfl

theorem classes_relabel (operands : List Operand) :
    classes (operands.map (Operand.relabel c)) =
      (classes operands).mapError (EncodingFault.relabel c) := by
  induction operands with
  | nil => rfl
  | cons o rest ih =>
    have hclass : (o.relabel c).form.class? = o.form.class? := o.form.class?_relabel
    rw [List.map_cons, classes, classes, hclass, ih]
    cases o.form.class? with
    | none => rfl
    | some cls => cases classes rest <;> rfl

theorem modeOf_relabel (operands : List Operand) :
    modeOf (operands.map (Operand.relabel c)) =
      (modeOf operands).mapError (EncodingFault.relabel c) := by
  rw [modeOf, classes_relabel, modeOf]
  cases classes operands with
  | error f => rfl
  | ok cs =>
    -- The mode looks at no more than two operands and two classes.
    rcases operands with _ | ⟨dst, _ | ⟨src, _ | _⟩⟩ <;>
      rcases cs with _ | ⟨d, _ | ⟨s, _ | _⟩⟩ <;> try rfl
    simp only [List.map_cons, List.map_nil, Except.mapError, bind, Except.bind]
    cases Mode.ofPair? d s <;> rfl

theorem sizeOf_relabel (m : Mnemonic) (form : OperandForm) :
    sizeOf m (form.relabel c) = (sizeOf m form).mapError (EncodingFault.relabel c) := by
  cases form with
  | immediate v =>
    simp only [OperandForm.relabel, sizeOf]
    cases m.size? with
    | none => rfl
    | some size =>
      dsimp only
      cases size.fits v <;> rfl
  | _ => rfl

theorem sizeFor_relabel (op : Opcode) (m : Mnemonic) (operands : List Operand) :
    sizeFor op m (operands.map (Operand.relabel c)) =
      (sizeFor op m operands).mapError (EncodingFault.relabel c) := by
  unfold sizeFor
  cases op.hasSize with
  | false => rfl
  | true =>
    match operands with
    | [] | [_] | _ :: _ :: _ :: _ => rfl
    | [dst, src] =>
      simp only [List.map_cons, List.map_nil, if_true, Operand.relabel, sizeOf_relabel]
      cases sizeOf m src.form <;> rfl

theorem badRegister?_relabel (operands : List Operand) :
    badRegister? (operands.map (Operand.relabel c)) = badRegister? operands := by
  have hregister : ∀ form : OperandForm, registerOf? (form.relabel c) = registerOf? form := by
    intro form
    cases form <;> rfl
  simp [badRegister?, List.findSome?_map, Function.comp_def, Operand.relabel, hregister]

theorem fieldOf_relabel (size : Option Size) {o : Operand} {cls : OperandClass}
    (h : o.form.class? = some cls) : fieldOf size (o.relabel c) = (fieldOf size o).relabel c := by
  obtain ⟨form, pos⟩ := o
  cases form with
  | text contents | other tag => cases h
  | _ => rfl

/-- The fields under other names, if the operands have a mode. -/
theorem fieldsOf_relabel (size : Option Size) {operands : List Operand}
    {classes : List OperandClass}
    (h : List.Forall₂ (fun o cls => o.form.class? = some cls) operands classes) :
    fieldsOf size (operands.map (Operand.relabel c)) =
      (fieldsOf size operands).map (Field.relabel c) := by
  cases h with
  | nil => rfl
  | @cons dst _ sources _ hdst hsources =>
    have hmap : sources.map (fun o => fieldOf size (o.relabel c)) =
        sources.map (fun o => (fieldOf size o).relabel c) := by
      induction hsources with
      | nil => rfl
      | cons hsrc _ ih => rw [List.map_cons, List.map_cons, fieldOf_relabel size hsrc, ih]
    rw [List.map_cons, fieldsOf, fieldOf_relabel none hdst, List.map_map, fieldsOf, List.map_cons,
      List.map_map]
    exact congrArg (_ :: ·) hmap

/-- The machine form of an instruction under other names. -/
theorem of_relabel (m : Mnemonic) (operands : List Operand) :
    Encoding.of m (operands.map (Operand.relabel c)) =
      ((Encoding.of m operands).map (Encoding.relabel c)).mapError (EncodingFault.relabel c) := by
  unfold Encoding.of
  cases m.opcode? with
  | none => rfl
  | some op =>
    by_cases hempty : operands = []
    · subst hempty
      rfl
    · have hmap : (operands.map (Operand.relabel c)).isEmpty = false := by simp [hempty]
      have hne : operands.isEmpty = false := by simp [hempty]
      simp only [hmap, hne, modeOf_relabel, sizeFor_relabel, badRegister?_relabel]
      cases hmode : modeOf operands with
      | error f => rfl
      | ok mode =>
        cases sizeFor op m operands with
        | error f => rfl
        | ok size =>
          cases badRegister? operands with
          | some r => rfl
          | none =>
            exact congrArg (fun fields => Except.ok (Encoding.mk op (some mode) size fields))
              (fieldsOf_relabel size (modeOf_eq_ok hmode))

end Encoding

/-- The faults of texts name no label. -/
theorem asciiBytes_mapError (whole : String) (index : Nat) (cs : List Char) :
    (asciiBytes whole index cs).mapError (EncodingFault.relabel c) = asciiBytes whole index cs := by
  induction cs generalizing index with
  | nil => rfl
  | cons x rest ih =>
    rw [asciiBytes]
    split
    · have hrest := ih (index + 1)
      cases h : asciiBytes whole (index + 1) rest with
      | ok bytes => rfl
      | error f =>
        rw [h] at hrest
        exact congrArg Except.error (Except.error.inj hrest)
    · rfl

theorem datumBytes_relabel (o : Operand) :
    datumBytes (o.relabel c) = (datumBytes o).mapError (EncodingFault.relabel c) := by
  obtain ⟨form, pos⟩ := o
  cases form with
  | text contents => exact (asciiBytes_mapError contents 0 contents.toList).symm
  | _ => rfl

/-- The bytes of data under other names. -/
theorem dataBytes_relabel (items : List Operand) :
    dataBytes (items.map (Operand.relabel c)) =
      (dataBytes items).mapError (EncodingFault.relabel c) := by
  have hall : (items.map (Operand.relabel c)).mapM datumBytes =
      (items.mapM datumBytes).mapError (EncodingFault.relabel c) := by
    induction items with
    | nil => rfl
    | cons o rest ih =>
      rw [List.map_cons, List.mapM_cons, List.mapM_cons, datumBytes_relabel, ih]
      cases datumBytes o with
      | error f => rfl
      | ok bytes => cases rest.mapM datumBytes <;> rfl
  unfold dataBytes
  rw [hall, List.isEmpty_map]
  cases items.isEmpty with
  | true => rfl
  | false => cases items.mapM datumBytes <;> rfl

/-! ## 4. Steps of a run -/

namespace Run

theorem report_relabel (r : Run) (e : Event) :
    (r.relabel c).report (e.relabel c) = (r.report e).relabel c := by
  simp [report, relabel]

/-- A reference is filled with the same address, or waits as before. -/
theorem settle_relabel (r : Run) (ref : Reference) :
    (r.relabel c).settle (ref.relabel c) = (r.settle ref).relabel c := by
  have hfind : (r.relabel c).table.find? (ref.relabel c).label = r.table.find? ref.label :=
    r.table.find?_relabel ref.label
  rw [settle, settle, hfind]
  cases r.table.find? ref.label <;> simp [relabel, Event.relabel, Reference.relabel]

theorem patch_relabel (r : Run) : (r.relabel c).patch = r.patch.relabel c := by
  have hempty : { r.relabel c with pending := #[] } = Run.relabel c { r with pending := #[] } := by
    simp [relabel]
  rw [patch, patch, hempty]
  change (r.pending.map (Reference.relabel c)).foldl settle _ = _
  rw [Array.foldl_map]
  exact Array.foldl_hom (Run.relabel c) fun r ref => settle_relabel r ref

/-- What is local stays local. -/
theorem closeRegion_relabel (r : Run) : (r.relabel c).closeRegion = r.closeRegion.relabel c := by
  have hlocal : ∀ ref : Reference, isLocalName (ref.relabel c).label = isLocalName ref.label :=
    fun ref => c.isLocalName_name ref.label
  have hfilter : ∀ p : Reference → Bool, (∀ ref, p (ref.relabel c) = p ref) →
      (r.pending.map (Reference.relabel c)).filter p =
        (r.pending.filter p).map (Reference.relabel c) := by
    intro p hp
    rw [Array.filter_map, Function.comp_def]
    simp only [hp]
  unfold closeRegion
  simp only [relabel, hfilter (isLocalName ·.label) hlocal,
    hfilter (!isLocalName ·.label) fun ref => by rw [hlocal], Array.map_append]

theorem refer_relabel (r : Run) (label : String) (pos : Position) :
    (r.relabel c).refer (c.name label) (c.place pos) = (r.refer label pos).relabel c := by
  have hfind : (r.relabel c).table.find? (c.name label) = r.table.find? label :=
    r.table.find?_relabel label
  rw [refer, refer, hfind]
  cases r.table.find? label with
  | some address => rfl
  | none => simp [relabel, offset, Reference.relabel, Event.relabel]

theorem writeField_relabel (r : Run) (f : Field) :
    (r.relabel c).writeField (f.relabel c) = (r.writeField f).relabel c := by
  cases f with
  | byte b => rfl
  | value v size => rfl
  | address label pos => exact r.refer_relabel label pos

theorem writeFields_relabel (fields : List Field) (r : Run) :
    (fields.map (Field.relabel c)).foldl writeField (r.relabel c) =
      (fields.foldl writeField r).relabel c := by
  induction fields generalizing r with
  | nil => rfl
  | cons f rest ih => rw [List.map_cons, List.foldl_cons, writeField_relabel, ih, List.foldl_cons]

theorem writeEncoding_relabel (r : Run) (s : Statement) (e : Encoding) :
    (r.relabel c).writeEncoding (s.relabel c) (e.relabel c) =
      (r.writeEncoding s e).relabel c := by
  have hfields : (e.relabel c).fields.foldl writeField ((r.relabel c).append (e.relabel c).head) =
      (e.fields.foldl writeField (r.append e.head)).relabel c :=
    writeFields_relabel e.fields (r.append e.head)
  have hmode : (e.relabel c).mode = e.mode := rfl
  unfold writeEncoding
  simp only [hfields, hmode, Encoding.length_relabel, Encoding.widths_relabel]
  cases e.mode with
  | some mode => simp [report, relabel, offset, Event.relabel, Encoding.relabel]
  | none => rfl

/-- A label is declared at the same address, or repeats as before. -/
theorem declare_toGlobal_relabel (r : Run) (name : String) (pos : Position) :
    { r.relabel c with table := (r.relabel c).table.toGlobal }.declare (c.name name) (c.place pos) =
      relabelOutcome c ({ r with table := r.table.toGlobal }.declare name pos) := by
  have htable : (r.table.relabel c).toGlobal.declare (c.name name) r.offset =
      ((r.table.toGlobal.declare name r.offset).map (SymbolTable.relabel c)).mapError
        (SymbolError.relabel c) :=
    r.table.declare_toGlobal_relabel name r.offset
  unfold declare
  simp only [relabel, offset] at htable ⊢
  rw [htable]
  cases r.table.toGlobal.declare name (.ofNat r.code.size) with
  | error e => rfl
  | ok table =>
    simp [Except.map, Except.mapError, relabelOutcome, relabel, Symbol.relabel, Event.relabel]

/-- A local label gets a scope of its own under its new name. -/
theorem declare_pushNamed_relabel (r : Run) (name : String) (pos : Position) :
    { r.relabel c with table := (r.relabel c).table.pushNamed (c.name name) }.declare (c.name name)
        (c.place pos) =
      relabelOutcome c ({ r with table := r.table.pushNamed name }.declare name pos) := by
  simp [declare, SymbolTable.declare_pushNamed, relabelOutcome, relabel, offset,
    SymbolTable.relabel, Scope.relabelLocal, Scope.relabel, Symbol.relabel, Event.relabel]

/-- What commutes with a relabeling does so when it is done again and again. -/
theorem repeatedly_relabel {f g : Run → Except (Fault × Run) Run}
    (h : ∀ r, g (r.relabel c) = relabelOutcome c (f r)) (n : Nat) (r : Run) :
    repeatedly g n (r.relabel c) = relabelOutcome c (repeatedly f n r) := by
  induction n generalizing r with
  | zero => rfl
  | succ n ih =>
    rw [repeatedly, repeatedly, h]
    cases f r with
    | ok r' => exact ih r'
    | error e => rfl

/-- One statement under other names. -/
theorem emit_relabel (s : Statement) (r : Run) :
    emit (s.relabel c) (r.relabel c) = relabelOutcome c (emit s r) := by
  induction s generalizing r with
  | label name pos =>
    simp only [Statement.relabel, emit, patch_relabel, closeRegion_relabel]
    exact declare_toGlobal_relabel r.patch.closeRegion name pos
  | localLabel name pos => exact declare_pushNamed_relabel r name pos
  | instruction m operands pos =>
    simp only [Statement.relabel, emit, Encoding.of_relabel]
    cases Encoding.of m operands with
    | error f => rfl
    | ok e => exact congrArg Except.ok (writeEncoding_relabel r (.instruction m operands pos) e)
  | data items pos =>
    simp only [Statement.relabel, emit, dataBytes_relabel]
    cases dataBytes items with
    | error f => rfl
    | ok bytes =>
      exact congrArg Except.ok (report_relabel (r.append bytes) (.placed r.offset bytes.length))
  | times count body pos ih =>
    rw [Statement.relabel, emit, emit]
    exact repeatedly_relabel ih count.toNat r
  | bareTimes count pos => rfl
  | other tag m operands pos => rfl

/-! ## 5. Whole runs -/

theorem emitAll_relabel (program : List Statement) (r : Run) :
    emitAll (program.map (Statement.relabel c)) (r.relabel c) =
      relabelOutcome c (emitAll program r) := by
  induction program generalizing r with
  | nil => rfl
  | cons s rest ih =>
    rw [List.map_cons, emitAll, emitAll, emit_relabel]
    cases emit s r with
    | ok r' => exact ih r'
    | error e => rfl

theorem finish_relabel (r : Run) : (r.relabel c).finish = r.finish.relabel c := by
  rw [finish, patch_relabel, finish]
  simp [relabel]

end Run

theorem emitAll_relabel_start (c : Relabeling) (program : List Statement) :
    Run.emitAll (program.map (Statement.relabel c)) {} =
      Run.relabelOutcome c (Run.emitAll program {}) := by
  have hstart : Run.relabel c {} = {} := by
    simp [Run.relabel, SymbolTable.relabel, SymbolTable.empty, Scope.relabel]
  rw [← Run.emitAll_relabel, hstart]

/-- A program under other names and at other places: the same image or the same
error, from the same run. -/
theorem assembleProgram_relabel (c : Relabeling) (program : List Statement) :
    assembleProgram (program.map (Statement.relabel c)) =
      ((assembleProgram program).1.mapError (ProgramError.relabel c),
        (assembleProgram program).2.relabel c) := by
  rw [assembleProgram_eq, assembleProgram_eq, emitAll_relabel_start]
  cases Run.emitAll program {} with
  | error e => rfl
  | ok r =>
    have hempty : (r.finish.relabel c).undefined.isEmpty = r.finish.undefined.isEmpty := by
      simp [Run.relabel, Array.isEmpty]
    simp only [Run.relabelOutcome, Run.finish_relabel, hempty]
    cases r.finish.undefined.isEmpty with
    | true => simp [Except.mapError, Run.relabel, Run.report, Event.relabel]
    | false => simp [Except.mapError, Run.relabel, Run.withoutCode, ProgramError.relabel]

/-! ## 6. Renamed labels -/

/-- Labels under other names, and everything where it was. -/
def Relabeling.ofNames (f : String → String) (hf : Function.Injective f)
    (hlocal : ∀ x, isLocalName (f x) = isLocalName x) : Relabeling :=
  ⟨f, id, hf, hlocal⟩

/-- A run over the program stops with a fault at its statement number `i`. -/
def StopsAt (program : List Statement) (i : Nat) (fault : Fault) : Prop :=
  ∃ s r r', program[i]? = some s ∧ Run.emitAll (program.take i) {} = .ok r ∧
    Run.emit s r = .error (fault, r')

theorem exists_stopsAt {program : List Statement} {fault : Fault}
    (h : (assembleProgram program).1 = .error (.fault fault)) : ∃ i, StopsAt program i fault := by
  rw [assembleProgram_eq] at h
  cases hrun : Run.emitAll program {} with
  | error e =>
    rw [hrun] at h
    cases h
    obtain ⟨before, s, after, r, rfl, hbefore, hs⟩ := Run.exists_of_emitAll_error hrun
    exact ⟨before.length, s, r, e.2, by simp, by rwa [List.take_left], hs⟩
  | ok r =>
    rw [hrun] at h
    dsimp only at h
    split at h <;> cases h

/-- Under other names a run stops where it stopped. -/
theorem StopsAt.relabel (c : Relabeling) {program : List Statement} {i : Nat} {fault : Fault}
    (h : StopsAt program i fault) :
    StopsAt (program.map (Statement.relabel c)) i (fault.relabel c) := by
  obtain ⟨s, r, r', hs, hrun, hstop⟩ := h
  refine ⟨s.relabel c, r.relabel c, r'.relabel c, ?_, ?_, ?_⟩
  · rw [List.getElem?_map, hs]
    rfl
  · rw [← List.map_take, emitAll_relabel_start, hrun]
    rfl
  · rw [Run.emit_relabel, hstop]
    rfl

/-- What the labels are called does not matter to the image.  If no two labels
get one name, and the local ones are those that were local, then the renamed
program has the image and the layouts of the old one, and its labels under their
new names.  If the old one has no image, then the new one has none for the same
reason: a run over it stops at the same statement, or leaves the same references
under their new names. -/
theorem assembleProgram_rename (f : String → String) (hf : Function.Injective f)
    (hlocal : ∀ x, isLocalName (f x) = isLocalName x) (program : List Statement) :
    let c := Relabeling.ofNames f hf hlocal
    let renamed := program.map (Statement.relabel c)
    (assembleProgram renamed).1 = (assembleProgram program).1.mapError (ProgramError.relabel c) ∧
      (assembleProgram renamed).2.layouts = (assembleProgram program).2.layouts ∧
      (assembleProgram renamed).2.declared.toList =
        (assembleProgram program).2.declared.toList.map (fun s => ⟨f s.name, s.address⟩) ∧
      ∀ fault, (assembleProgram program).1 = .error (.fault fault) →
        ∃ i, StopsAt program i fault ∧ StopsAt renamed i (fault.relabel c) := by
  intro c renamed
  have hrenamed : assembleProgram renamed =
      ((assembleProgram program).1.mapError (ProgramError.relabel c),
        (assembleProgram program).2.relabel c) :=
    assembleProgram_relabel c program
  refine ⟨?_, ?_, ?_, ?_⟩
  · rw [hrenamed]
  · rw [hrenamed]
    rfl
  · rw [hrenamed]
    exact Array.toList_map
  · intro fault h
    obtain ⟨i, hstop⟩ := exists_stopsAt h
    exact ⟨i, hstop, hstop.relabel c⟩

/-- An ending for every name keeps names apart and local names local. -/
theorem isLocalName_append_tail (x : String) : isLocalName (x ++ "_") = isLocalName x := by
  rw [isLocalName, isLocalName, String.toList_append]
  cases x.toList <;> rfl

theorem append_tail_injective : Function.Injective fun x : String => x ++ "_" := by
  intro x y h
  have hlist := congrArg String.toList h
  simp only [String.toList_append, List.append_cancel_right_eq] at hlist
  exact String.toList_inj.mp hlist

/-- Jumps to a local label, and one to a label that is missing. -/
theorem assembleProgram_rename_missingLabel :
    let ending : String → String := (· ++ "_")
    let program : List Statement :=
      [.label "a" ⟨1, 1⟩, .localLabel ".b" ⟨2, 1⟩,
        .times 2 (.instruction (.op .jmp) [⟨.name ".b", ⟨3, 13⟩⟩] ⟨3, 9⟩) ⟨3, 1⟩,
        .instruction (.op .jmp) [⟨.name "c", ⟨4, 5⟩⟩] ⟨4, 1⟩]
    Function.Injective ending ∧ (∀ x, isLocalName (ending x) = isLocalName x) ∧
      (assembleProgram (program.map (Statement.relabel
        (.ofNames ending append_tail_injective isLocalName_append_tail)))).1 =
        .error (.undefined [⟨"c_", 14, ⟨4, 5⟩⟩]) := by
  refine ⟨append_tail_injective, isLocalName_append_tail, ?_⟩
  rw [(assembleProgram_rename (· ++ "_") append_tail_injective isLocalName_append_tail _).1]
  rfl

end RegAsm
