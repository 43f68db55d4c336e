/-
RegAsm.Proofs.Reencoding — encoding an instruction again as it is listed.

A listing shows some operands by the name of a label.  The instruction that is
shown has the opcode, mode, size and widths of the one that was read, and its
bytes are the same if and only if every name that is shown stands for the value
of its operand (`encoding_shown`).

1. The bytes of an instruction that was read.
2. Operands.
3. Sizes.
4. Instructions.
-/
import RegAsm.Proofs.Relisting

namespace RegAsm

open Machine Encoding
open Source (Position)

/-! ## 1. Bytes -/

/-- The bytes of an operand that was read. -/
def DecodedOperand.bytes (d : DecodedOperand) : List UInt8 :=
  valueBytes d.value ((Size.ofWidth? d.width).getD .qword)

/-- The bytes of an instruction that was read. -/
def Instruction.bytes (i : Instruction) : List UInt8 :=
  Encoding.head ⟨i.opcode, i.mode, i.size, []⟩ ++ i.operands.flatMap DecodedOperand.bytes

/-- An operand that was read from the field of an operand as it was written. -/
structure ReadFrom (address? : String → Option UInt32) (size : Option Size) (o : Operand)
    (d : DecodedOperand) : Prop where
  operandClass : o.form.class? = some d.operandClass
  value : o.form.value? address? = some d.value
  width : d.width = ((fieldOf size o).width : Int)

theorem byteAt_zero (r : UInt8) : byteAt r.toUInt32 0 = r := by
  simp [byteAt]

theorem fourBytes_inj {v w : UInt32} (h : fourBytes v = fourBytes w) : v = w := by
  rw [← ofBytes_fourBytes v, h, ofBytes_fourBytes]

/-- A field is read as its bytes. -/
theorem ReadFrom.bytes {address? : String → Option UInt32} {size : Option Size} {o : Operand}
    {d : DecodedOperand} (h : ReadFrom address? size o d) :
    (fieldOf size o).bytes? address? = some d.bytes := by
  obtain ⟨hclass, hvalue, hwidth⟩ := h
  cases hform : o.form with
  | text s => rw [hform] at hclass; cases hclass
  | other tag => rw [hform] at hclass; cases hclass
  | register r | indirectRegister r =>
    have hfield : fieldOf size o = .byte r.number := by rw [fieldOf, hform]
    rw [hfield] at hwidth ⊢
    rw [hform] at hvalue
    have hnumber : r.number.toUInt32 = d.value := Option.some.inj hvalue
    rw [DecodedOperand.bytes, hwidth, ← hnumber]
    exact congrArg some (congrArg ([·]) (byteAt_zero r.number).symm)
  | immediate v =>
    have hfield : fieldOf size o = .value v (size.getD (.least v)) := by rw [fieldOf, hform]
    rw [hfield] at hwidth ⊢
    rw [hform] at hvalue
    cases hvalue
    rw [DecodedOperand.bytes, hwidth, Field.width, ofWidth?_bytes]
    rfl
  | indirectImmediate v =>
    have hfield : fieldOf size o = .value v .qword := by rw [fieldOf, hform]
    rw [hfield] at hwidth ⊢
    rw [hform] at hvalue
    cases hvalue
    rw [DecodedOperand.bytes, hwidth]
    rfl
  | name label | indirectName label =>
    have hfield : fieldOf size o = .address label o.pos := by rw [fieldOf, hform]
    rw [hfield] at hwidth ⊢
    rw [hform] at hvalue
    have haddress : address? label = some d.value := hvalue
    rw [DecodedOperand.bytes, hwidth, Field.bytes?, haddress]
    rfl

/-! ## 2. Operands -/

/-- Whether the names that are shown stand for the values of their operands. -/
def NamesStand (labels : Labels) (address? : String → Option UInt32) (d : DecodedOperand) : Prop :=
  ∀ name, Instruction.shownName? labels d = some name → address? name = some d.value

/-- Whether the names that are shown stand for something. -/
def NamesKnown (labels : Labels) (address? : String → Option UInt32) (d : DecodedOperand) : Prop :=
  ∀ name, Instruction.shownName? labels d = some name → (address? name).isSome = true

/-- Every address that a name stands for has a label. -/
def Labels.Cover (labels : Labels) (address? : String → Option UInt32) : Prop :=
  ∀ label v, address? label = some v → ∃ name, labels.best? v = some name

namespace Instruction

variable {labels : Labels}

theorem class?_shownForm (labels : Labels) (d : DecodedOperand) :
    (shownForm labels d).class? = some d.operandClass := by
  unfold shownForm
  cases d.operandClass with
  | register => rfl
  | registerIndirect => rfl
  | indirect => cases shownName? labels d <;> rfl
  | immediate => cases shownName? labels d <;> rfl

theorem value?_shownForm {d : DecodedOperand} {name : String} (h : shownName? labels d = some name)
    (address? : String → Option UInt32) : (shownForm labels d).value? address? = address? name := by
  unfold shownForm
  cases hclass : d.operandClass with
  | register | registerIndirect => simp [shownName?, hclass] at h
  | indirect | immediate =>
    simp only [h]
    rfl

/-- A field for a name holds the operand's bytes if the name stands for its
value, and some bytes if the name stands for anything. -/
theorem bytes?_address_iff {d : DecodedOperand} {name : String} {pos : Position}
    (h : shownName? labels d = some name) (hwidth : d.width = 4)
    (address? : String → Option UInt32) :
    ((Field.address name pos).bytes? address? = some d.bytes ↔ NamesStand labels address? d) ∧
    (((Field.address name pos).bytes? address?).isSome = true ↔ NamesKnown labels address? d) := by
  have hbytes : d.bytes = fourBytes d.value := by
    rw [DecodedOperand.bytes, hwidth]
    rfl
  refine ⟨?_, by simp [Field.bytes?, NamesKnown, h]⟩
  rw [hbytes, Field.bytes?, Option.map_eq_some_iff, NamesStand, h]
  constructor
  · rintro ⟨v, hv, heq⟩ n ⟨⟩
    rw [hv, fourBytes_inj heq]
  · intro hall
    exact ⟨d.value, hall name rfl, rfl⟩

/-- An operand is shown as it was written, and then it is no name, or it is
shown by a name and takes four bytes. -/
theorem shownForm_cases {address? : String → Option UInt32} (hcover : labels.Cover address?)
    {size : Option Size} {o : Operand} {d : DecodedOperand} (h : ReadFrom address? size o d) :
    (shownName? labels d = none ∧ shownForm labels d = o.form ∧
      ∀ label, o.form ≠ .name label ∧ o.form ≠ .indirectName label) ∨
    ∃ name, shownName? labels d = some name ∧ d.width = 4 ∧ registerOf? o.form = none ∧
      (shownForm labels d = .name name ∨ shownForm labels d = .indirectName name) := by
  obtain ⟨hclass, hvalue, hwidth⟩ := h
  cases hform : o.form with
  | text s => rw [hform] at hclass; cases hclass
  | other tag => rw [hform] at hclass; cases hclass
  | register r | indirectRegister r =>
    rw [hform] at hclass hvalue
    have hc := Option.some.inj hclass
    have hnumber : r.number.toUInt32 = d.value := Option.some.inj hvalue
    left
    simp [shownName?, shownForm, ← hc, DecodedOperand.register, ← hnumber]
  | immediate v =>
    rw [hform] at hclass hvalue
    have hc := Option.some.inj hclass
    have hv : v = d.value := Option.some.inj hvalue
    cases hname : shownName? labels d with
    | none => left; simp [shownForm, ← hc, hname, hv]
    | some name =>
      have hfour : d.width = 4 := by
        by_contra hne
        simp [shownName?, ← hc, hne] at hname
      right
      exact ⟨name, rfl, hfour, rfl, .inl (by simp [shownForm, ← hc, hname])⟩
  | indirectImmediate v =>
    rw [hform] at hclass hvalue
    have hc := Option.some.inj hclass
    have hv : v = d.value := Option.some.inj hvalue
    have hfour : d.width = 4 := by rw [hwidth, fieldOf, hform]; rfl
    cases hname : shownName? labels d with
    | none => left; simp [shownForm, ← hc, hname, hv]
    | some name =>
      right
      exact ⟨name, rfl, hfour, rfl, .inr (by simp [shownForm, ← hc, hname])⟩
  | name label =>
    rw [hform] at hclass hvalue
    have hc := Option.some.inj hclass
    have hfour : d.width = 4 := by rw [hwidth, fieldOf, hform]; rfl
    obtain ⟨name, hbest⟩ := hcover label d.value hvalue
    have hname : shownName? labels d = some name := by simp [shownName?, ← hc, hfour, hbest]
    right
    exact ⟨name, hname, hfour, rfl, .inl (by simp [shownForm, ← hc, hname])⟩
  | indirectName label =>
    rw [hform] at hclass hvalue
    have hc := Option.some.inj hclass
    have hfour : d.width = 4 := by rw [hwidth, fieldOf, hform]; rfl
    obtain ⟨name, hbest⟩ := hcover label d.value hvalue
    have hname : shownName? labels d = some name := by simp [shownName?, ← hc, hbest]
    right
    exact ⟨name, hname, hfour, rfl, .inr (by simp [shownForm, ← hc, hname])⟩

/-- The field of an operand that is no name does not depend on where it is
written or on what names stand for. -/
theorem bytes?_fieldOf_plain {o : Operand}
    (h : ∀ label, o.form ≠ .name label ∧ o.form ≠ .indirectName label)
    {c : OperandClass} (hclass : o.form.class? = some c) (size : Option Size) (pos : Position) :
    fieldOf size ⟨o.form, pos⟩ = fieldOf size o ∧
      ∀ address? address?' : String → Option UInt32,
        (fieldOf size o).bytes? address? = (fieldOf size o).bytes? address?' := by
  unfold fieldOf
  cases hform : o.form with
  | text s => rw [hform] at hclass; cases hclass
  | other tag => rw [hform] at hclass; cases hclass
  | name label => exact absurd hform (h label).1
  | indirectName label => exact absurd hform (h label).2
  | _ => exact ⟨rfl, fun _ _ => rfl⟩

/-- The field of an operand as it is shown has the width of the field it was
read from, and holds the same bytes if the name that is shown stands for the
operand's value. -/
theorem fieldOf_shownForm {address? : String → Option UInt32} (hcover : labels.Cover address?)
    {size : Option Size} {o : Operand} {d : DecodedOperand} (h : ReadFrom address? size o d)
    (pos : Position) :
    registerOf? (shownForm labels d) = registerOf? o.form ∧
    (fieldOf size ⟨shownForm labels d, pos⟩).width = (fieldOf size o).width ∧
    ∀ address?',
      ((fieldOf size ⟨shownForm labels d, pos⟩).bytes? address?' = some d.bytes ↔
        NamesStand labels address?' d) ∧
      (((fieldOf size ⟨shownForm labels d, pos⟩).bytes? address?').isSome = true ↔
        NamesKnown labels address?' d) := by
  rcases shownForm_cases hcover h with ⟨hnone, hshown, hplain⟩ | ⟨name, hname, hfour, hreg, hshown⟩
  · obtain ⟨hfield, hbytes⟩ := bytes?_fieldOf_plain hplain h.operandClass size pos
    rw [hshown, hfield]
    refine ⟨rfl, rfl, fun address?' => ?_⟩
    rw [hbytes address?' address?, h.bytes]
    exact ⟨iff_of_true rfl fun name hname => by simp [hnone] at hname,
      iff_of_true rfl fun name hname => by simp [hnone] at hname⟩
  · have hfield : fieldOf size ⟨shownForm labels d, pos⟩ = .address name pos := by
      rcases hshown with hshown | hshown <;> rw [fieldOf, hshown]
    have hwidth := h.width
    rw [hfour] at hwidth
    refine ⟨?_, ?_, fun address?' => ?_⟩
    · rw [hreg]
      rcases hshown with hshown | hshown <;> rw [hshown] <;> rfl
    · rw [hfield]
      exact_mod_cast hwidth
    · rw [hfield]
      exact bytes?_address_iff hname hfour address?'

/-! ## 3. Sizes -/

theorem opcode?_shownKeyword (i : Instruction) : i.shownKeyword.opcode? = some i.opcode := by
  unfold shownKeyword
  split
  · rename_i hop _ _
    rw [hop]
    split <;> rfl
  · rfl

/-- A source of four bytes has the widest size. -/
theorem eq_qword_of_width {m : Mnemonic} {o : Operand} {s : Size}
    (h : sizeOf m o.form = .ok s) (hwidth : (fieldOf (some s) o).width = 4) : s = .qword := by
  cases hform : o.form with
  | immediate v =>
    rw [fieldOf, hform] at hwidth
    cases s with
    | word => cases hwidth
    | dword => cases hwidth
    | qword => rfl
  | _ =>
    rw [hform] at h
    cases h
    rfl

/-- The size of an immediate source as it is listed. -/
theorem sizeOf_shownKeyword {m : Mnemonic} {i : Instruction} {d src : DecodedOperand} {s : Size}
    (hm : m.opcode? = some i.opcode) (hsize : i.size = some s) (hops : i.operands = [d, src])
    (hclass : src.operandClass = .immediate) (h : sizeOf m (.immediate src.value) = .ok s) :
    sizeOf i.shownKeyword (.immediate src.value) = .ok s := by
  have hfits := (sizeOf_eq_ok h).1 src.value rfl
  by_cases hmov : i.opcode = .mov
  · have hkeyword : i.shownKeyword =
        if Size.least src.value ≠ s then .sizedMove s else .op .mov := by
      simp [shownKeyword, hmov, hsize, hops, hclass]
    rw [hkeyword]
    by_cases hleast : Size.least src.value = s
    · simp [Encoding.sizeOf, Mnemonic.size?, hleast]
    · simp [Encoding.sizeOf, Mnemonic.size?, hleast, hfits]
  · -- Only a move can state its size.
    have hkeyword : i.shownKeyword = m := by
      cases m with
      | op opcode =>
        cases hm
        unfold shownKeyword
        split
        · rename_i hop _ _
          exact absurd hop hmov
        · rfl
      | sizedMove size => exact absurd (Option.some.inj hm).symm hmov
      | _ => cases hm
    rw [hkeyword, h]

/-- The size byte of an instruction as it is listed. -/
theorem sizeFor_shown {address? : String → Option UInt32} (hcover : labels.Cover address?)
    {m : Mnemonic} {i : Instruction} {dst src : Operand} {d d' : DecodedOperand}
    {pos pos' : Position} (hm : m.opcode? = some i.opcode) (hops : i.operands = [d, d'])
    (h : sizeFor i.opcode m [dst, src] = .ok i.size) (hread : ReadFrom address? i.size src d') :
    sizeFor i.opcode i.shownKeyword
      [⟨shownForm labels d, pos⟩, ⟨shownForm labels d', pos'⟩] = .ok i.size := by
  obtain ⟨hsized, hsource⟩ := sizeFor_eq_ok h
  cases hsize : i.size with
  | none =>
    rw [hsize] at hsized
    simp [sizeFor, hsized]
  | some s =>
    rw [hsize] at hsized hread
    obtain ⟨_, _, ⟨⟩, hof⟩ := hsource s hsize
    have hshown : sizeOf i.shownKeyword (shownForm labels d') = .ok s := by
      rcases shownForm_cases hcover hread with ⟨-, hform, -⟩ | ⟨name, -, hfour, -, hform⟩
      · rw [hform]
        cases hsrc : src.form with
        | immediate v =>
          obtain ⟨hclass, hvalue, -⟩ := hread
          rw [hsrc] at hclass hvalue hof
          have hv : v = d'.value := Option.some.inj hvalue
          subst hv
          exact sizeOf_shownKeyword hm hsize hops (Option.some.inj hclass).symm hof
        | _ => rw [hsrc] at hof; exact hof
      · have hwidth := hread.width
        rw [hfour] at hwidth
        have hqword : s = .qword := eq_qword_of_width hof (by exact_mod_cast hwidth.symm)
        rcases hform with hform | hform <;> rw [hform, hqword] <;> rfl
    simp [sizeFor, hsized, hshown, Except.map]

end Instruction

/-! ## 4. Instructions -/

theorem forall₂_singleton {α β : Type} {R : α → β → Prop} {xs : List α} {y : β}
    (h : List.Forall₂ R xs [y]) : ∃ x, xs = [x] ∧ R x y := by
  obtain ⟨x, rest, hx, hrest, rfl⟩ := List.forall₂_cons_right_iff.mp h
  rw [List.forall₂_nil_right_iff.mp hrest]
  exact ⟨x, rfl, hx⟩

theorem forall₂_pair {α β : Type} {R : α → β → Prop} {xs : List α} {y y' : β}
    (h : List.Forall₂ R xs [y, y']) : ∃ x x', xs = [x, x'] ∧ R x y ∧ R x' y' := by
  obtain ⟨x, rest, hx, hrest, rfl⟩ := List.forall₂_cons_right_iff.mp h
  obtain ⟨x', rfl, hx'⟩ := forall₂_singleton hrest
  exact ⟨x, x', rfl, hx, hx'⟩

theorem Encoding.classes_of_forall₂ {operands : List Operand} {cs : List OperandClass}
    (h : List.Forall₂ (fun o c => o.form.class? = some c) operands cs) :
    classes operands = .ok cs := by
  induction h with
  | nil => rfl
  | cons hc _ ih => simp [classes, hc, ih, Except.map]

/-- Operands of the same classes have the same mode. -/
theorem Encoding.modeOf_congr {operands operands' : List Operand} {mode : Mode}
    (h : modeOf operands = .ok mode)
    (h' : List.Forall₂ (fun o c => o.form.class? = some c) operands' mode.classes) :
    modeOf operands' = .ok mode := by
  cases mode with
  | one c =>
    obtain ⟨o, rfl, -⟩ := forall₂_singleton h'
    simp [modeOf, classes_of_forall₂ h', Mode.classes, bind, Except.bind]
  | two d s =>
    have hclasses := modeOf_eq_ok h
    obtain ⟨dst, src, rfl, -⟩ := forall₂_pair hclasses
    obtain ⟨dst', src', rfl, -⟩ := forall₂_pair h'
    simp only [modeOf, classes_of_forall₂ hclasses, Mode.classes, bind, Except.bind] at h
    simp only [modeOf, classes_of_forall₂ h', Mode.classes, bind, Except.bind]
    split at h
    · exact h
    · cases h

theorem Encoding.of_operands {m : Mnemonic} {op : Opcode} {operands : List Operand} {mode : Mode}
    {size : Option Size} (hop : m.opcode? = some op) (hmode : modeOf operands = .ok mode)
    (hsize : sizeFor op m operands = .ok size) (hr : badRegister? operands = none) :
    Encoding.of m operands = .ok ⟨op, some mode, size, fieldsOf size operands⟩ := by
  have hne : operands.isEmpty = false := by
    cases operands with
    | nil => cases hmode
    | cons o rest => rfl
  simp [Encoding.of, hop, hne, hmode, hsize, hr, bind, Except.bind, pure, Except.pure]

/-- An operand that was read has the width of the field it was read from. -/
theorem ReadFrom.length_bytes {address? : String → Option UInt32} {size : Option Size} {o : Operand}
    {d : DecodedOperand} (h : ReadFrom address? size o d) :
    d.bytes.length = (fieldOf size o).width :=
  (fieldOf size o).length_of_bytes? h.bytes

/-- The operands of an instruction that was read back, each with its field. -/
theorem ReadBack.readFrom {address? : String → Option UInt32} {e : Encoding}
    {operands : List Operand} {ds : List DecodedOperand} (h : ReadBack address? e operands ds)
    (hfields : e.fields = fieldsOf e.size operands) :
    (∀ {dst}, operands = [dst] → ∃ d, ds = [d] ∧ ReadFrom address? none dst d) ∧
    ∀ {dst src}, operands = [dst, src] → ∃ d d', ds = [d, d'] ∧
      ReadFrom address? none dst d ∧ ReadFrom address? e.size src d' := by
  obtain ⟨hoperands, hwidths⟩ := h
  rw [Encoding.widths, hfields] at hwidths
  refine ⟨?_, ?_⟩
  · rintro dst rfl
    obtain ⟨d, rfl, hclass, hvalue⟩ := forall₂_singleton hoperands.flip
    simp only [fieldsOf, List.map_cons, List.map_nil, List.cons.injEq] at hwidths
    exact ⟨d, rfl, hclass, hvalue, hwidths.1⟩
  · rintro dst src rfl
    obtain ⟨d, d', rfl, ⟨hclass, hvalue⟩, hclass', hvalue'⟩ := forall₂_pair hoperands.flip
    simp only [fieldsOf, List.map_cons, List.map_nil, List.cons.injEq] at hwidths
    exact ⟨d, d', rfl, ⟨hclass, hvalue, hwidths.1⟩, ⟨hclass', hvalue', hwidths.2.1⟩⟩

section Shown

variable {labels : Labels} {address? : String → Option UInt32} {i : Instruction}

/-- A field of an instruction as it was written, next to the operand that was
read from it. -/
def Field.IsWritten (address? : String → Option UInt32) (f : Field) (d : DecodedOperand) : Prop :=
  f.width = d.bytes.length ∧ f.bytes? address? = some d.bytes

/-- A field of an instruction as it is listed, next to the operand that it
shows. -/
def Field.IsShown (labels : Labels) (f : Field) (d : DecodedOperand) : Prop :=
  f.width = d.bytes.length ∧
    ∀ address?, (f.bytes? address? = some d.bytes ↔ NamesStand labels address? d) ∧
      ((f.bytes? address?).isSome = true ↔ NamesKnown labels address? d)

theorem ReadFrom.class?_shown {size : Option Size} {o : Operand} {d : DecodedOperand}
    {c : OperandClass} (h : ReadFrom address? size o d) (hc : o.form.class? = some c) :
    (Instruction.shownForm labels d).class? = some c := by
  rw [Instruction.class?_shownForm, ← h.operandClass, hc]

theorem ReadFrom.written {size : Option Size} {o : Operand} {d : DecodedOperand}
    (h : ReadFrom address? size o d) : (fieldOf size o).IsWritten address? d :=
  ⟨h.length_bytes.symm, h.bytes⟩

theorem ReadFrom.shown (hcover : labels.Cover address?) {size : Option Size} {o : Operand}
    {d : DecodedOperand} (h : ReadFrom address? size o d) (pos : Position) :
    (fieldOf size ⟨Instruction.shownForm labels d, pos⟩).IsShown labels d := by
  obtain ⟨-, hwidth, hbytes⟩ := Instruction.fieldOf_shownForm hcover h pos
  exact ⟨by rw [hwidth, h.length_bytes], hbytes⟩

theorem fieldBytes?_written {fields : List Field} {ds : List DecodedOperand}
    (h : List.Forall₂ (Field.IsWritten address?) fields ds) :
    fieldBytes? address? fields = some (ds.flatMap DecodedOperand.bytes) ∧
      fields.map Field.width = ds.map (·.bytes.length) := by
  induction h with
  | nil => exact ⟨rfl, rfl⟩
  | cons hf _ ih =>
    obtain ⟨hwidth, hbytes⟩ := hf
    refine ⟨?_, by rw [List.map_cons, List.map_cons, hwidth, ih.2]⟩
    rw [fieldBytes?, hbytes, ih.1]
    rfl

/-- Fields as they are listed hold the bytes that were read if every name stands
for its operand's value, and some bytes if every name stands for something. -/
theorem fieldBytes?_shown {fields : List Field} {ds : List DecodedOperand}
    (h : List.Forall₂ (Field.IsShown labels) fields ds) (address? : String → Option UInt32) :
    fields.map Field.width = ds.map (·.bytes.length) ∧
    (fieldBytes? address? fields = some (ds.flatMap DecodedOperand.bytes) ↔
      ∀ d ∈ ds, NamesStand labels address? d) ∧
    ((fieldBytes? address? fields).isSome = true ↔ ∀ d ∈ ds, NamesKnown labels address? d) := by
  induction h with
  | nil => exact ⟨rfl, by simp [fieldBytes?], by simp [fieldBytes?]⟩
  | @cons f d fields ds hf _ ih =>
    obtain ⟨hwidth, hiff⟩ := hf
    obtain ⟨hwidths, hstand, hknown⟩ := ih
    have hlength : ∀ xs, f.bytes? address? = some xs → xs.length = d.bytes.length := by
      intro xs hxs
      rw [f.length_of_bytes? hxs, hwidth]
    refine ⟨by rw [List.map_cons, List.map_cons, hwidth, hwidths], ?_, ?_⟩
    · rw [List.forall_mem_cons, ← hstand, ← (hiff address?).1, fieldBytes?, List.flatMap_cons,
        joined?_eq_append_iff hlength]
    · rw [List.forall_mem_cons, ← hknown, ← (hiff address?).2, fieldBytes?, isSome_joined?]

/-- What can be said of the machine form `e'` of an instruction as it is listed:
it takes as many bytes as the instruction, the very same ones if every name
stands for its operand's value, and some bytes if every name stands for
something. -/
structure Instruction.Recoded (labels : Labels) (i : Instruction) (e' : Encoding) : Prop where
  encoded : Encoding.of i.shownKeyword (i.shownOperands labels) = .ok e'
  length : e'.length = i.bytes.length
  bytes : ∀ address?, e'.bytes? address? = some i.bytes ↔
    ∀ d ∈ i.operands, NamesStand labels address? d
  known : ∀ address?, (e'.bytes? address?).isSome = true ↔
    ∀ d ∈ i.operands, NamesKnown labels address? d

/-- Operands that name the same registers fail the same check. -/
theorem Encoding.badRegister?_congr {operands operands' : List Operand}
    (h : List.Forall₂ (fun o o' => registerOf? o'.form = registerOf? o.form) operands operands') :
    badRegister? operands' = badRegister? operands := by
  induction h with
  | nil => rfl
  | cons hr _ ih =>
    simp only [badRegister?, List.findSome?_cons, hr] at ih ⊢
    rw [ih]

/-- An instruction as it is listed has a machine form with a given head, and its
fields stand beside those of the machine form that was read. -/
def ShownAs (labels : Labels) (address? : String → Option UInt32) (i : Instruction)
    (e : Encoding) : Prop :=
  ∃ e', Encoding.of i.shownKeyword (i.shownOperands labels) = .ok e' ∧ e'.head = e.head ∧
    List.Forall₂ (Field.IsWritten address?) e.fields i.operands ∧
    List.Forall₂ (Field.IsShown labels) e'.fields i.operands

section Forms

variable {m : Mnemonic} {dst src : Operand} {d d' : DecodedOperand} {c c' : OperandClass}
variable (hcover : labels.Cover address?)

include hcover

theorem shownAs_one (hmode : i.mode = some (.one c)) (hmodeOf : modeOf [dst] = .ok (.one c))
    (hsize : sizeFor i.opcode m [dst] = .ok i.size) (hregs : badRegister? [dst] = none)
    (hops : i.operands = [d]) (hread : ReadFrom address? none dst d) :
    ShownAs labels address? i ⟨i.opcode, i.mode, i.size, fieldsOf i.size [dst]⟩ := by
  obtain ⟨hreg, -, -⟩ := Instruction.fieldOf_shownForm hcover hread .nowhere
  have hshown : i.shownOperands labels = [⟨Instruction.shownForm labels d, .nowhere⟩] := by
    rw [Instruction.shownOperands, hops]
    rfl
  have hnone : i.size = none := by
    cases hs : i.size with
    | none => rfl
    | some s =>
      obtain ⟨_, _, hlist, -⟩ := (sizeFor_eq_ok hsize).2 s hs
      cases hlist
  have hmodeOf' : modeOf (i.shownOperands labels) = .ok (.one c) := by
    obtain ⟨_, ⟨⟩, hc⟩ := forall₂_singleton (modeOf_eq_ok hmodeOf)
    refine Encoding.modeOf_congr hmodeOf ?_
    rw [hshown]
    exact .cons (hread.class?_shown hc) .nil
  have hsize' : sizeFor i.opcode i.shownKeyword (i.shownOperands labels) = .ok i.size := by
    have hsized := (sizeFor_eq_ok hsize).1
    rw [hnone] at hsized ⊢
    simp [sizeFor, hsized]
  have hregs' : badRegister? (i.shownOperands labels) = none := by
    rw [hshown, badRegister?_congr (.cons hreg .nil), hregs]
  have hof := Encoding.of_operands i.opcode?_shownKeyword hmodeOf' hsize' hregs'
  refine ⟨_, hof, by rw [hmode]; rfl, ?_, ?_⟩
  · rw [hops]
    exact .cons hread.written .nil
  · rw [hops, hshown]
    exact .cons (hread.shown hcover _) .nil

theorem shownAs_two (hm : m.opcode? = some i.opcode) (hmode : i.mode = some (.two c c'))
    (hmodeOf : modeOf [dst, src] = .ok (.two c c'))
    (hsize : sizeFor i.opcode m [dst, src] = .ok i.size) (hregs : badRegister? [dst, src] = none)
    (hops : i.operands = [d, d']) (hread : ReadFrom address? none dst d)
    (hread' : ReadFrom address? i.size src d') :
    ShownAs labels address? i ⟨i.opcode, i.mode, i.size, fieldsOf i.size [dst, src]⟩ := by
  obtain ⟨hreg, -, -⟩ := Instruction.fieldOf_shownForm hcover hread .nowhere
  obtain ⟨hreg', -, -⟩ := Instruction.fieldOf_shownForm hcover hread' .nowhere
  have hshown : i.shownOperands labels =
      [⟨Instruction.shownForm labels d, .nowhere⟩,
        ⟨Instruction.shownForm labels d', .nowhere⟩] := by
    rw [Instruction.shownOperands, hops]
    rfl
  have hmodeOf' : modeOf (i.shownOperands labels) = .ok (.two c c') := by
    obtain ⟨_, _, ⟨⟩, hc, hc'⟩ := forall₂_pair (modeOf_eq_ok hmodeOf)
    refine Encoding.modeOf_congr hmodeOf ?_
    rw [hshown]
    exact .cons (hread.class?_shown hc) (.cons (hread'.class?_shown hc') .nil)
  have hsize' : sizeFor i.opcode i.shownKeyword (i.shownOperands labels) = .ok i.size := by
    rw [hshown]
    exact Instruction.sizeFor_shown hcover hm hops hsize hread'
  have hregs' : badRegister? (i.shownOperands labels) = none := by
    rw [hshown, badRegister?_congr (.cons hreg (.cons hreg' .nil)), hregs]
  have hof := Encoding.of_operands i.opcode?_shownKeyword hmodeOf' hsize' hregs'
  refine ⟨_, hof, by rw [hmode]; rfl, ?_, ?_⟩
  · rw [hops]
    exact .cons hread.written (.cons hread'.written .nil)
  · rw [hops, hshown]
    exact .cons (hread.shown hcover _) (.cons (hread'.shown hcover _) .nil)

end Forms

/-- The instruction that a listing shows has a machine form with the length and
the widths of the one that was read. -/
theorem encoding_shown {m : Mnemonic} {operands : List Operand} {e : Encoding}
    (he : Encoding.of m operands = .ok e) (hds : ReadBack address? e operands i.operands)
    (hop : i.opcode = e.opcode) (hmode : i.mode = e.mode) (hsize : i.size = e.size)
    (hcover : labels.Cover address?) :
    e.bytes? address? = some i.bytes ∧
      ∃ e', i.Recoded labels e' ∧ e'.length = e.length ∧ e'.widths = e.widths := by
  have hshownAs : ShownAs labels address? i e := by
    obtain ⟨hm, hnone | ⟨mode, hemode, hmodeOf, hsizeFor, hregs, hfields⟩⟩ := Encoding.of_eq_ok he
    · obtain ⟨rfl, hm', hs, hf⟩ := hnone
      have hempty : i.operands = [] := List.forall₂_nil_left_iff.mp hds.operands
      refine ⟨⟨i.opcode, none, none, []⟩, ?_, ?_, ?_, ?_⟩
      · simp [Encoding.of, i.opcode?_shownKeyword, Instruction.shownOperands, hempty, pure,
          Except.pure]
      · rw [Encoding.head, Encoding.head, hop, hm', hs]
      · rw [hf, hempty]
        exact .nil
      · rw [hempty]
        exact .nil
    · obtain ⟨hone, htwo⟩ := hds.readFrom hfields
      obtain ⟨opcode, emode, size, fields⟩ := e
      subst hop hmode hsize
      have hfields : fields = fieldsOf i.size operands := hfields
      subst hfields
      -- An instruction with operands has one or two of them, by its mode.
      cases mode with
      | one c =>
        obtain ⟨dst, rfl, -⟩ := forall₂_singleton (modeOf_eq_ok hmodeOf)
        obtain ⟨d, hops, hread⟩ := hone rfl
        exact shownAs_one hcover hemode hmodeOf hsizeFor hregs hops hread
      | two c c' =>
        obtain ⟨dst, src, rfl, -⟩ := forall₂_pair (modeOf_eq_ok hmodeOf)
        obtain ⟨d, d', hops, hread, hread'⟩ := htwo rfl
        exact shownAs_two hcover hm hemode hmodeOf hsizeFor hregs hops hread hread'
  obtain ⟨e', hof, hhead', hwritten, hshown⟩ := hshownAs
  have hhead : e.head = Encoding.head ⟨i.opcode, i.mode, i.size, []⟩ := by
    rw [hop, hmode, hsize]
    rfl
  obtain ⟨hfields, hwidths⟩ := fieldBytes?_written hwritten
  have hbytes : e.bytes? address? = some i.bytes := by
    rw [Encoding.bytes?, hfields, hhead]
    rfl
  have hwidths' : e'.widths = e.widths := by
    rw [Encoding.widths, Encoding.widths, hwidths, (fieldBytes?_shown hshown address?).1]
  have hlength : e'.length = e.length := by
    rw [Encoding.length, Encoding.length, hhead', hwidths']
  refine ⟨hbytes, e', ⟨hof, ?_, fun address?' => ?_, fun address?' => ?_⟩, hlength, hwidths'⟩
  · rw [hlength, e.length_of_bytes? hbytes]
  · rw [← (fieldBytes?_shown hshown address?').2.1, Encoding.bytes?, hhead', hhead,
      Instruction.bytes, joined?_eq_append_iff fun zs hzs => by cases hzs; rfl]
    exact and_iff_right rfl
  · rw [← (fieldBytes?_shown hshown address?').2.2, Encoding.bytes?, isSome_joined?]
    exact and_iff_right rfl

end Shown

end RegAsm
