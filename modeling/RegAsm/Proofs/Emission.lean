/-
RegAsm.Proofs.Emission — an instruction or a data directive is placed as a whole
or not at all.

An instruction has many ways to be wrong: its keyword, the class of an operand,
the pair of classes, the number of operands, a value that is too large, a register
that does not exist.  A data directive is written item by item, so an item that is
no datum can come to light when others already stand in the image.  Either way a
run that refuses the statement is the run from before, and a run that accepts it
has grown at its ends and nowhere else (`emit_whole_or_not`).  Which of the two it
is depends on the statement alone (`Mnemonic.Takes`, `IsDatumList`).

1. The instructions that have a machine form.
2. The data that have one.
3. Data, item by item.
4. What a run grows by.
5. Placed or refused.
-/
import Mathlib
import RegAsm.Proofs.Reencoding
import RegAsm.Proofs.Undefined

namespace RegAsm

open Machine
open Source (Position)

/-! ## 1. Instructions -/

/-- The register that an operand names exists, if it names one. -/
def Operand.NamesAssigned (o : Operand) : Prop :=
  ∀ r, Encoding.registerOf? o.form = some r → r.isAssigned = true

/-- A number fits the size that a keyword states, if it states one. -/
def Machine.Mnemonic.Holds (m : Mnemonic) (source : OperandForm) : Prop :=
  ∀ v size, source = .immediate v → m.size? = some size → size.fits v = true

/-- The operands that a keyword takes. -/
inductive Machine.Mnemonic.Takes (m : Mnemonic) : List Operand → Prop
  | nothing {op : Opcode} : m.opcode? = some op → Takes m []
  | one {op : Opcode} {o : Operand} {c : OperandClass} : m.opcode? = some op →
    op.hasSize = false → o.form.class? = some c → o.NamesAssigned → Takes m [o]
  | two {op : Opcode} {dst src : Operand} {c c' : OperandClass} : m.opcode? = some op →
    dst.form.class? = some c → src.form.class? = some c' → Mode.accepts c c' = true →
    (op.hasSize = true → m.Holds src.form) → dst.NamesAssigned → src.NamesAssigned →
    Takes m [dst, src]

namespace Encoding

theorem modeOf_one {o : Operand} {c : OperandClass} (h : o.form.class? = some c) :
    modeOf [o] = .ok (.one c) := by
  simp [modeOf, classes, h, Except.map, bind, Except.bind]

theorem modeOf_two {dst src : Operand} {c c' : OperandClass} (hdst : dst.form.class? = some c)
    (hsrc : src.form.class? = some c') :
    modeOf [dst, src] = if Mode.accepts c c' = true then .ok (.two c c')
      else .error (.noMode dst.form src.form) := by
  simp only [modeOf, classes, hdst, hsrc, Except.map, bind, Except.bind, Mode.ofPair?]
  cases Mode.accepts c c' <;> rfl

/-- No register is missing if every operand names one that exists, or none. -/
theorem badRegister?_eq_none_iff {operands : List Operand} :
    badRegister? operands = none ↔ ∀ o ∈ operands, o.NamesAssigned := by
  constructor
  · intro h o ho r hr
    exact isAssigned_of_badRegister? h ho hr
  · intro h
    refine List.findSome?_eq_none_iff.mpr fun o ho => ?_
    cases hr : registerOf? o.form with
    | none => rfl
    | some r => simp [h o ho r hr]

/-- Only a number can be too large, and only for a size that is stated. -/
theorem sizeOf_isOk_iff {m : Mnemonic} {source : OperandForm} :
    (∃ s, sizeOf m source = .ok s) ↔ m.Holds source := by
  cases source with
  | immediate v =>
    cases hm : m.size? with
    | none => simp [sizeOf, Mnemonic.Holds, hm]
    | some size => cases hfits : size.fits v <;> simp [sizeOf, Mnemonic.Holds, hm, hfits]
  | _ => simp [sizeOf, Mnemonic.Holds]

theorem sizeFor_two_isOk_iff {op : Opcode} {m : Mnemonic} {dst src : Operand} :
    (∃ size, sizeFor op m [dst, src] = .ok size) ↔ (op.hasSize = true → m.Holds src.form) := by
  cases hop : op.hasSize with
  | false => simp [sizeFor, hop]
  | true =>
    rw [← sizeOf_isOk_iff]
    cases hsize : sizeOf m src.form <;> simp [sizeFor, hop, hsize, Except.map]

/-- An instruction has a machine form exactly if its keyword takes its operands. -/
theorem exists_of_iff_takes {m : Mnemonic} {operands : List Operand} :
    (∃ e, Encoding.of m operands = .ok e) ↔ m.Takes operands := by
  constructor
  · rintro ⟨e, he⟩
    obtain ⟨hop, ⟨rfl, -⟩ | ⟨mode, -, hmode, hsize, hregisters, -⟩⟩ := of_eq_ok he
    · exact .nothing hop
    · have hassigned := badRegister?_eq_none_iff.mp hregisters
      have hclasses := modeOf_eq_ok hmode
      cases mode with
      | one c =>
        obtain ⟨o, rfl, hc⟩ := forall₂_singleton hclasses
        have hunsized : e.opcode.hasSize = false := by
          cases hsized : e.opcode.hasSize with
          | false => rfl
          | true => simp [sizeFor, hsized] at hsize
        exact .one hop hunsized hc (hassigned o List.mem_cons_self)
      | two c c' =>
        obtain ⟨dst, src, rfl, hc, hc'⟩ := forall₂_pair hclasses
        have hpair : Mode.accepts c c' = true := by
          rw [modeOf_two hc hc'] at hmode
          split at hmode
          · assumption
          · cases hmode
        exact .two hop hc hc' hpair (sizeFor_two_isOk_iff.mp ⟨e.size, hsize⟩)
          (hassigned dst (by simp)) (hassigned src (by simp))
  · intro h
    cases h with
    | @nothing op hop =>
      exact ⟨⟨op, none, none, []⟩, by simp [Encoding.of, hop, pure, Except.pure]⟩
    | @one op o c hop hunsized hc ho =>
      have hsize : sizeFor op m [o] = .ok none := by simp [sizeFor, hunsized]
      exact ⟨_, of_operands hop (modeOf_one hc) hsize
        (badRegister?_eq_none_iff.mpr (by simpa using ho))⟩
    | @two op dst src c c' hop hc hc' hpair hfits hdst hsrc =>
      obtain ⟨size, hsize⟩ := sizeFor_two_isOk_iff.mpr hfits
      have hmode : modeOf [dst, src] = .ok (.two c c') := by rw [modeOf_two hc hc', if_pos hpair]
      exact ⟨_, of_operands hop hmode hsize
        (badRegister?_eq_none_iff.mpr (by simpa using ⟨hdst, hsrc⟩))⟩

end Encoding

/-! ## 2. Data -/

/-- A datum: a number, or a text of ASCII characters. -/
def OperandForm.IsAsciiDatum : OperandForm → Prop
  | .immediate _ => True
  | .text s => ∀ c ∈ s.toList, c.toNat < 0x80
  | _ => False

/-- The items of a data directive that has bytes. -/
def IsDatumList (items : List Operand) : Prop :=
  items ≠ [] ∧ ∀ o ∈ items, o.form.IsAsciiDatum

theorem asciiBytes_isOk_iff {whole : String} {index : Nat} {text : List Char} :
    (∃ bytes, asciiBytes whole index text = .ok bytes) ↔ ∀ c ∈ text, c.toNat < 0x80 := by
  induction text generalizing index with
  | nil => simp [asciiBytes]
  | cons c rest ih =>
    rw [List.forall_mem_cons, ← @ih (index + 1), asciiBytes]
    by_cases hc : c.toNat < 0x80
    · rw [if_pos hc]
      cases asciiBytes whole (index + 1) rest <;> simp [Except.map, hc]
    · simp [hc]

theorem datumBytes_isOk_iff {o : Operand} :
    (∃ bytes, datumBytes o = .ok bytes) ↔ o.form.IsAsciiDatum := by
  cases hform : o.form with
  | text s =>
    simp only [datumBytes, hform, OperandForm.IsAsciiDatum]
    exact asciiBytes_isOk_iff
  | _ => simp [datumBytes, hform, OperandForm.IsAsciiDatum]

theorem mapM_datumBytes_isOk_iff {items : List Operand} :
    (∃ pieces, items.mapM datumBytes = .ok pieces) ↔ ∀ o ∈ items, o.form.IsAsciiDatum := by
  induction items with
  | nil => simp [pure, Except.pure]
  | cons o rest ih =>
    rw [List.forall_mem_cons, ← ih, ← datumBytes_isOk_iff, List.mapM_cons]
    cases datumBytes o with
    | error f => simp [bind, Except.bind]
    | ok bytes => cases rest.mapM datumBytes <;> simp [bind, Except.bind, pure, Except.pure]

theorem dataBytes_isOk_iff {items : List Operand} :
    (∃ bytes, dataBytes items = .ok bytes) ↔ IsDatumList items := by
  rw [IsDatumList, ← mapM_datumBytes_isOk_iff, dataBytes]
  cases items with
  | nil => simp
  | cons o rest =>
    rw [List.isEmpty_cons, if_neg Bool.false_ne_true]
    cases (o :: rest).mapM datumBytes <;> simp [Except.map]

/-! ## 3. Item by item -/

namespace Run

/-- Writes the items of a data directive one after the other.  At an item that is
no datum the image is cut back to the offset where the directive began. -/
def writeItems (start : UInt32) : List Operand → Run → Except (EncodingFault × Run) Run
  | [], r => .ok r
  | o :: rest, r =>
    match datumBytes o with
    | .ok bytes => writeItems start rest (r.append bytes)
    | .error f => .error (f, { r with code := r.code.take start.toNat })

theorem append_nil (r : Run) : r.append [] = r := by
  simp [append]

theorem append_append (r : Run) (xs ys : List UInt8) :
    (r.append xs).append ys = r.append (xs ++ ys) := by
  simp only [append]
  congr 1
  apply Array.ext'
  simp

/-- Cutting an image back to its old length undoes what was added. -/
theorem cut_append (r : Run) (bytes : List UInt8) :
    { r.append bytes with code := (r.append bytes).code.take r.code.size } = r := by
  have hcode : (r.append bytes).code.take r.code.size = r.code := by
    apply Array.ext'
    simp [append]
  rw [hcode]
  rfl

/-- Writing item by item adds the bytes of all items, or leaves nothing of those
that were written before the one that is no datum. -/
theorem writeItems_eq {start : UInt32} {r : Run} (hstart : start.toNat = r.code.size)
    (items : List Operand) (written : List UInt8) :
    writeItems start items (r.append written) =
      ((items.mapM datumBytes).map fun pieces => r.append (written ++ pieces.flatten)).mapError
        fun f => (f, r) := by
  induction items generalizing written with
  | nil => simp [writeItems, Except.map, Except.mapError, pure, Except.pure]
  | cons o rest ih =>
    rw [writeItems, List.mapM_cons]
    cases datumBytes o with
    | error f =>
      simp only [hstart, cut_append]
      rfl
    | ok bytes =>
      simp only [append_append, ih]
      cases rest.mapM datumBytes with
      | error f => rfl
      | ok pieces => simp [Except.map, Except.mapError, bind, Except.bind, pure, Except.pure]

/-- A data directive does what writing it item by item does. -/
theorem emit_data_eq_writeItems {r : Run} (hsize : r.code.size < 2 ^ 32) {items : List Operand}
    (hne : items ≠ []) (pos : Position) :
    emit (.data items pos) r =
      ((writeItems r.offset items r).map fun r' =>
        r'.report (.placed r.offset (r'.code.size - r.code.size))).mapError
          fun e => (.encoding pos "Db" e.1, e.2) := by
  have hstart : r.offset.toNat = r.code.size := UInt32.toNat_ofNat_of_lt' hsize
  have hitems := writeItems_eq hstart items []
  rw [append_nil] at hitems
  have hempty : ¬ items.isEmpty = true := by simpa using hne
  rw [hitems, emit, dataBytes, if_neg hempty]
  cases items.mapM datumBytes with
  | error f => rfl
  | ok pieces =>
    have hadded : (r.append pieces.flatten).code.size - r.code.size = pieces.flatten.length := by
      rw [append, size_appendList, Nat.add_sub_cancel_left]
    simp [Except.map, Except.mapError, hadded]

/-! ## 4. Growth -/

/-- What a name is written as for now: its address, or zero while it waits. -/
def standing? (r : Run) (name : String) : Option UInt32 := some ((r.table.find? name).getD 0)

/-- A run has become another one by adding bytes, places and references that wait
at its ends.  Nothing that was there before is touched. -/
structure Grown (r r' : Run) (bytes : List UInt8) (layouts : List Layout)
    (waiting : List Reference) : Prop where
  code : r'.code.toList = r.code.toList ++ bytes
  layouts : r'.layouts.toList = r.layouts.toList ++ layouts
  pending : r'.pending.toList = r.pending.toList ++ waiting
  declared : r'.declared = r.declared
  table : r'.table = r.table
  undefined : r'.undefined = r.undefined

/-- A field is written behind the bytes so far. -/
theorem writeField_written (r : Run) (f : Field) :
    ∃ bytes, f.bytes? r.standing? = some bytes ∧
      (r.writeField f).code.toList = r.code.toList ++ bytes := by
  cases f with
  | byte b => exact ⟨[b], rfl, Array.toList_appendList⟩
  | value v size => exact ⟨valueBytes v size, rfl, Array.toList_appendList⟩
  | address label pos =>
    refine ⟨fourBytes ((r.table.find? label).getD 0), rfl, ?_⟩
    rw [writeField, refer]
    cases r.table.find? label <;> exact Array.toList_appendList

theorem writeFields_written (fields : List Field) (r : Run) :
    ∃ bytes, fieldBytes? r.standing? fields = some bytes ∧
      (fields.foldl writeField r).code.toList = r.code.toList ++ bytes := by
  induction fields generalizing r with
  | nil => exact ⟨[], rfl, by simp⟩
  | cons f rest ih =>
    obtain ⟨bytes, hbytes, hcode⟩ := r.writeField_written f
    obtain ⟨more, hmore, hcode'⟩ := ih (r.writeField f)
    -- Writing a field declares no label, so the names stand for the same.
    have hsame : (r.writeField f).standing? = r.standing? := by
      funext name
      rw [standing?, standing?, (r.sameBooks_writeField f).table]
    rw [hsame] at hmore
    refine ⟨bytes ++ more, by rw [fieldBytes?, hbytes, hmore]; rfl, ?_⟩
    rw [List.foldl_cons, hcode', hcode, List.append_assoc]

/-- An instruction adds its bytes, its place, and those of its references that are
not visible. -/
theorem grown_instruction {m : Mnemonic} {operands : List Operand} {pos : Position} {r r' : Run}
    (h : emit (.instruction m operands pos) r = .ok r') :
    ∃ e bytes, Encoding.of m operands = .ok e ∧ e.bytes? r.standing? = some bytes ∧
      Grown r r' bytes [e.layout r.code.size]
        (((Statement.instruction m operands pos).references r.code.size).filter
          fun ref => (r.table.find? ref.label).isNone) := by
  obtain ⟨e, events, he, rfl⟩ := exists_encoding_of_emit h
  obtain ⟨bytes, hbytes, hcode⟩ := writeFields_written e.fields (r.append e.head)
  obtain ⟨hpending, hundefined⟩ := writeFields_waiting e.fields (r.append e.head)
  have hbooks := sameBooks_writeFields e.fields (r.append e.head)
  have hsize : (r.append e.head).code.size = r.code.size + e.head.length := by
    rw [append, size_appendList]
  have hstanding : (r.append e.head).standing? = r.standing? := rfl
  rw [hstanding] at hbytes
  refine ⟨e, e.head ++ bytes, he, by rw [Encoding.bytes?, hbytes]; rfl, ?_⟩
  refine ⟨?_, Array.toList_push, ?_, hbooks.declared, hbooks.table, hundefined⟩
  · rw [hcode, append, Array.toList_appendList, List.append_assoc]
  · rw [hpending, hsize]
    simp only [Statement.references, he, operandReferences_of_ok he]
    rfl

theorem grown_data {items : List Operand} {pos : Position} {r r' : Run}
    (h : emit (.data items pos) r = .ok r') :
    ∃ bytes, dataBytes items = .ok bytes ∧ Grown r r' bytes [] [] := by
  obtain ⟨bytes, hbytes, rfl⟩ := emit_data_eq_ok_iff.mp h
  exact ⟨bytes, hbytes, Array.toList_appendList, by simp [report, append],
    by simp [report, append], rfl, rfl, rfl⟩

/-- A place whose length is the number of bytes added runs from the old offset to
the new one. -/
theorem Grown.stop_eq {r r' : Run} {bytes : List UInt8} {layouts : List Layout}
    {waiting : List Reference} (h : Grown r r' bytes layouts waiting) {e : Encoding}
    (hlength : bytes.length = e.length) : (e.layout r.code.size).stop = r'.offset := by
  have hsize : r'.code.size = r.code.size + e.length := by
    rw [← Array.length_toList, h.code, List.length_append, hlength, Array.length_toList]
  have hcount : UInt32.ofInt (e.length : Int) = UInt32.ofNat e.length := by
    apply UInt32.toNat_inj.mp
    rw [UInt32.ofInt, UInt32.toNat_ofNat', UInt32.toNat_ofNat']
    omega
  rw [Layout.stop, Encoding.layout, offset, hsize, UInt32.ofNat_add, hcount]

end Run

/-! ## 5. Placed or refused -/

/-- For every state of a run, an instruction or a data directive is either refused,
for a reason that lies in the statement, and the run is exactly the one from
before; or it is accepted, and the run has only grown.  An accepted instruction
adds its bytes and one place, which runs from the old offset to the new one, and
references that wait where its names are not visible yet; accepted data add their
bytes and nothing else.  This is also what comes of data that are written item by
item and cut back at an item that is no datum. -/
theorem emit_whole_or_not (r : Run) (hsize : r.code.size < 2 ^ 32) :
    (∀ (m : Mnemonic) (operands : List Operand) (pos : Position),
      (¬ m.Takes operands ∧ ∃ f, Run.emit (.instruction m operands pos) r =
          .error (.encoding pos (Statement.instructionKind m) f, r)) ∨
      (m.Takes operands ∧ ∃ r' bytes layout,
        Run.emit (.instruction m operands pos) r = .ok r' ∧
        (Statement.instruction m operands pos).bytes? r.standing? = some bytes ∧
        Run.Grown r r' bytes [layout]
          (((Statement.instruction m operands pos).references r.code.size).filter
            fun ref => (r.table.find? ref.label).isNone) ∧
        layout.offset.toNat = r.code.size ∧ layout.length = bytes.length ∧
        layout.stop = r'.offset)) ∧
    (∀ (items : List Operand) (pos : Position),
      (¬ IsDatumList items ∧ ∃ f, Run.emit (.data items pos) r =
          .error (.encoding pos "Db" f, r)) ∨
      (IsDatumList items ∧ ∃ r' bytes, Run.emit (.data items pos) r = .ok r' ∧
        dataBytes items = .ok bytes ∧ Run.Grown r r' bytes [] [])) ∧
    ∀ (items : List Operand) (pos : Position), items ≠ [] →
      Run.emit (.data items pos) r =
        ((Run.writeItems r.offset items r).map fun r' =>
          r'.report (.placed r.offset (r'.code.size - r.code.size))).mapError
            fun e => (.encoding pos "Db" e.1, e.2) := by
  refine ⟨fun m operands pos => ?_, fun items pos => ?_,
    fun items pos hne => Run.emit_data_eq_writeItems hsize hne pos⟩
  · rw [← Encoding.exists_of_iff_takes]
    cases hof : Encoding.of m operands with
    | error f => exact .inl ⟨by simp, f, by rw [Run.emit, hof]⟩
    | ok e =>
      have hemit : Run.emit (.instruction m operands pos) r =
          .ok (r.writeEncoding (.instruction m operands pos) e) := by rw [Run.emit, hof]
      obtain ⟨e', bytes, he', hbytes, hgrown⟩ := Run.grown_instruction hemit
      cases hof.symm.trans he'
      have hlength := e.length_of_bytes? hbytes
      refine .inr ⟨⟨e, rfl⟩, _, bytes, _, hemit, ?_, hgrown, UInt32.toNat_ofNat_of_lt' hsize, ?_,
        hgrown.stop_eq hlength⟩
      · rw [Statement.bytes?, hof]
        exact hbytes
      · rw [hlength]
        rfl
  · rw [← dataBytes_isOk_iff]
    cases hbytes : dataBytes items with
    | error f => exact .inl ⟨by simp, f, by rw [Run.emit, hbytes]⟩
    | ok bytes =>
      have hemit : Run.emit (.data items pos) r =
          .ok ((r.append bytes).report (.placed r.offset bytes.length)) := by rw [Run.emit, hbytes]
      obtain ⟨bytes', hbytes', hgrown⟩ := Run.grown_data hemit
      cases hbytes.symm.trans hbytes'
      exact .inr ⟨⟨bytes, rfl⟩, _, bytes, hemit, rfl, hgrown⟩

/-- A label, and a jump to a name that is still to come. -/
def waitingJump : List Statement :=
  [.label "g" .nowhere, .instruction (.op .jmp) [⟨.name "late", .nowhere⟩] .nowhere]

/-- Behind a reference that waits, data whose second item is not ASCII are refused
and a move of a name is placed. -/
theorem emit_whole_or_not_waitingJump :
    ∃ r, Run.emitAll waitingJump {} = .ok r ∧ r.code.size = 6 ∧
      (∃ f, Run.emit (.data [⟨.immediate 7, .nowhere⟩, ⟨.text "aé", .nowhere⟩] .nowhere) r =
        .error (.encoding .nowhere "Db" f, r)) ∧
      ∃ r' bytes layout waiting,
        Run.emit (.instruction (.op .mov) [⟨.register ⟨0⟩, .nowhere⟩, ⟨.name "late", .nowhere⟩]
          .nowhere) r = .ok r' ∧
        Run.Grown r r' bytes [layout] waiting ∧ layout.offset.toNat = 6 ∧
        layout.stop = r'.offset := by
  have hstate : ∃ r ∈ (Run.emitAll waitingJump {}).toOption, r.code.size = 6 := by decide +kernel
  obtain ⟨r, hr, hsize⟩ := hstate
  have hrun : Run.emitAll waitingJump {} = .ok r := by
    cases h : Run.emitAll waitingJump {} with
    | error e => rw [h] at hr; cases hr
    | ok r' => rw [h] at hr; cases hr; rfl
  obtain ⟨hinstruction, hdata, -⟩ := emit_whole_or_not r (by rw [hsize]; decide)
  refine ⟨r, hrun, hsize, ?_, ?_⟩
  · rcases hdata [⟨.immediate 7, .nowhere⟩, ⟨.text "aé", .nowhere⟩] .nowhere with
      ⟨-, hrefused⟩ | ⟨hdatums, -⟩
    · exact hrefused
    · have hascii := hdatums.2 ⟨.text "aé", .nowhere⟩ (by simp)
      exact absurd (hascii 'é' (by decide)) (by decide)
  · have htakes : (Mnemonic.op .mov).Takes
        [⟨.register ⟨0⟩, .nowhere⟩, ⟨.name "late", .nowhere⟩] := by
      refine @Mnemonic.Takes.two _ .mov _ _ .register .immediate rfl rfl rfl rfl ?_ ?_ ?_
      · rintro - v size ⟨⟩
      · rintro _ ⟨⟩
        decide
      · rintro _ ⟨⟩
    rcases hinstruction (.op .mov) [⟨.register ⟨0⟩, .nowhere⟩, ⟨.name "late", .nowhere⟩]
      .nowhere with ⟨hno, -⟩ | ⟨-, r', bytes, layout, hemit, -, hgrown, hstart, -, hstop⟩
    · exact absurd htakes hno
    · exact ⟨r', bytes, layout, _, hemit, hgrown, hstart.trans hsize, hstop⟩

end RegAsm
