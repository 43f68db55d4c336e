/-
RegAsm.Proofs.Decoding — reading an instruction back gives what was written.

The two directions compute widths, size byte and mode byte on their own: the
encoder from the forms of the operands, the decoder from the mode byte, the
size byte and the widths that the layout states.  `Encoding.of_eq_ok` says what
the encoder checked, `decode_bytes` follows the decoder over the bytes of one
instruction inside a larger image, and `imageFrom?_split` finds those bytes in
the image of a program.

1. Values and their bytes.
2. What the encoder checks.
3. The operands read back.
4. The instruction read back.
5. Every instruction of a program.
-/
import RegAsm.Listing.Instruction
import RegAsm.Proofs.RunImage

namespace RegAsm

open Machine
open Source (Position)

/-! ## 1. Values -/

theorem toNat_byteAt (v : UInt32) {shift : UInt32} (h : shift < 32) :
    (byteAt v shift).toNat = v.toNat / 2 ^ shift.toNat % 256 := by
  have hs : shift.toNat % 32 = shift.toNat := Nat.mod_eq_of_lt (UInt32.lt_iff_toNat_lt.mp h)
  simp [byteAt, Nat.shiftRight_eq_div_pow, hs]

theorem toNat_ofBytes_cons (b : UInt8) {rest : List UInt8} (h : (ofBytes rest).toNat < 2 ^ 24) :
    (ofBytes (b :: rest)).toNat = b.toNat + 256 * (ofBytes rest).toNat := by
  have hb : b.toNat < 2 ^ 8 := b.toNat_lt
  -- The low byte and the rest have no bit in common, so joining them is adding them.
  have hor := Nat.two_pow_add_eq_or_of_lt hb (ofBytes rest).toNat
  have hmod : (ofBytes rest).toNat <<< 8 % 2 ^ 32 = 2 ^ 8 * (ofBytes rest).toNat := by
    rw [Nat.shiftLeft_eq]
    omega
  have hcons : (ofBytes (b :: rest)).toNat =
      b.toNat ||| (ofBytes rest).toNat <<< 8 % 2 ^ 32 := by
    simp [ofBytes]
  rw [hcons, hmod, Nat.or_comm, ← hor]
  omega

/-- The bytes of a value spell the value, if the size holds it. -/
theorem ofBytes_valueBytes {v : UInt32} {size : Size} (h : size.fits v = true) :
    ofBytes (valueBytes v size) = v := by
  have h0 := toNat_byteAt v (show (0 : UInt32) < 32 by decide)
  have h8 := toNat_byteAt v (show (8 : UInt32) < 32 by decide)
  have h16 := toNat_byteAt v (show (16 : UInt32) < 32 by decide)
  have h24 := toNat_byteAt v (show (24 : UInt32) < 32 by decide)
  have hv := v.toNat_lt
  simp only [UInt32.reduceToNat] at h0 h8 h16 h24
  have hnil : (ofBytes []).toNat = 0 := rfl
  have one := fun b => toNat_ofBytes_cons b (show (ofBytes []).toNat < 2 ^ 24 by decide)
  have two := fun b c => toNat_ofBytes_cons b
    (show (ofBytes [c]).toNat < 2 ^ 24 by rw [one, hnil]; have := c.toNat_lt; omega)
  have three := fun b c d => toNat_ofBytes_cons b
    (show (ofBytes [c, d]).toNat < 2 ^ 24 by
      rw [two, one, hnil]; have := c.toNat_lt; have := d.toNat_lt; omega)
  have four := fun b c d e => toNat_ofBytes_cons b
    (show (ofBytes [c, d, e]).toNat < 2 ^ 24 by
      rw [three, two, one, hnil]
      have := c.toNat_lt; have := d.toNat_lt; have := e.toNat_lt
      omega)
  apply UInt32.toNat_inj.mp
  cases size with
  | word =>
    simp only [Size.fits, decide_eq_true_eq, UInt32.le_iff_toNat_le, UInt32.reduceToNat] at h
    rw [valueBytes, one, hnil, h0]
    omega
  | dword =>
    simp only [Size.fits, decide_eq_true_eq, UInt32.le_iff_toNat_le, UInt32.reduceToNat] at h
    rw [valueBytes, two, one, hnil, h0, h8]
    omega
  | qword =>
    rw [valueBytes, fourBytes, four, three, two, one, hnil, h0, h8, h16, h24]
    omega

theorem ofBytes_fourBytes (v : UInt32) : ofBytes (fourBytes v) = v :=
  ofBytes_valueBytes (show Size.qword.fits v = true from rfl)

theorem ofBytes_singleton (b : UInt8) : ofBytes [b] = b.toUInt32 := by
  simp [ofBytes]

theorem fits_least (v : UInt32) : (Size.least v).fits v = true := by
  unfold Size.least
  split
  · simpa [Size.fits] using ‹v ≤ 0xFF›
  · split
    · simpa [Size.fits] using ‹v ≤ 0xFFFF›
    · rfl

@[simp]
theorem ofWidth?_bytes (size : Size) : Size.ofWidth? (size.bytes : Int) = some size := by
  cases size <;> rfl

@[simp]
theorem ofCode?_sizeCode (size : Size) : Size.ofCode? size.code = some size := by
  cases size <;> rfl

/-- A value is read where its bytes stand. -/
theorem readValue_bytes {code : Array UInt8} {xs bytes ys : List UInt8} {size : Size}
    (hcode : code.toList = xs ++ (bytes ++ ys)) (hlen : bytes.length = size.bytes) :
    readValue code xs.length (size.bytes : Int) = .ok (ofBytes bytes) := by
  have hsize : code.size = xs.length + (bytes.length + ys.length) := by
    rw [← Array.length_toList, hcode, List.length_append, List.length_append]
  have hleft : ¬ ((code.size - xs.length : Nat) : Int) < (size.bytes : Int) := by omega
  have hcut : (code.extract xs.length (xs.length + size.bytes)).toList = bytes := by
    rw [Array.toList_extract, hcode, List.extract_eq_take_drop, List.drop_left,
      Nat.add_sub_cancel_left, ← hlen, List.take_left]
  simp only [readValue, if_neg hleft, ofWidth?_bytes, hcut]

/-! ## 2. What the encoder checks -/

namespace Encoding

/-- The parts of an instruction's machine form. -/
theorem of_eq_ok {m : Mnemonic} {operands : List Operand} {e : Encoding}
    (h : Encoding.of m operands = .ok e) :
    m.opcode? = some e.opcode ∧
    ((operands = [] ∧ e.mode = none ∧ e.size = none ∧ e.fields = []) ∨
      ∃ mode, e.mode = some mode ∧ modeOf operands = .ok mode ∧
        sizeFor e.opcode m operands = .ok e.size ∧ badRegister? operands = none ∧
        e.fields = fieldsOf e.size operands) := by
  unfold Encoding.of at h
  cases hop : m.opcode? with
  | none => simp [hop] at h
  | some op =>
    simp only [hop, pure, Except.pure] at h
    cases operands with
    | nil =>
      simp only [List.isEmpty_nil, if_true, Except.ok.injEq] at h
      subst h
      exact ⟨rfl, Or.inl ⟨rfl, rfl, rfl, rfl⟩⟩
    | cons o rest =>
      simp only [List.isEmpty_cons, Bool.false_eq_true, if_false, bind, Except.bind] at h
      cases hm : modeOf (o :: rest) with
      | error f => simp [hm] at h
      | ok mode =>
        simp only [hm] at h
        cases hs : sizeFor op m (o :: rest) with
        | error f => simp [hs] at h
        | ok size =>
          simp only [hs] at h
          cases hr : badRegister? (o :: rest) with
          | some r => simp [hr] at h
          | none =>
            simp only [hr, Except.ok.injEq] at h
            subst h
            exact ⟨rfl, Or.inr ⟨mode, rfl, rfl, hs, rfl, rfl⟩⟩

theorem classes_eq_ok {operands : List Operand} {cs : List OperandClass}
    (h : classes operands = .ok cs) :
    List.Forall₂ (fun o c => o.form.class? = some c) operands cs := by
  induction operands generalizing cs with
  | nil => cases h; exact List.Forall₂.nil
  | cons o rest ih =>
    rw [classes] at h
    cases hc : o.form.class? with
    | none => simp [hc] at h
    | some c =>
      simp only [hc] at h
      cases hrest : classes rest with
      | error f => simp [hrest, Except.map] at h
      | ok cs' =>
        simp only [hrest, Except.map, Except.ok.injEq] at h
        subst h
        exact List.Forall₂.cons hc (ih hrest)

/-- The mode holds the classes of the operands, of which there are one or
two. -/
theorem modeOf_eq_ok {operands : List Operand} {mode : Mode} (h : modeOf operands = .ok mode) :
    List.Forall₂ (fun o c => o.form.class? = some c) operands mode.classes := by
  unfold modeOf at h
  cases hcs : classes operands with
  | error f => simp [hcs, bind, Except.bind] at h
  | ok cs =>
    have hall := classes_eq_ok hcs
    simp only [hcs, bind, Except.bind] at h
    split at h
    · cases h; exact hall
    · split at h
      · rename_i hpair
        cases h
        unfold Mode.ofPair? at hpair
        split at hpair
        · cases hpair; exact hall
        · cases hpair
      · cases h
    · cases h

/-- Every register that an operand names is assigned. -/
theorem isAssigned_of_badRegister? {operands : List Operand} (h : badRegister? operands = none)
    {o : Operand} (ho : o ∈ operands) {r : Register} (hr : registerOf? o.form = some r) :
    r.isAssigned = true := by
  have hnone := List.findSome?_eq_none_iff.mp h o ho
  rw [hr] at hnone
  simpa [Option.filter] using hnone

end Encoding

/-! ## 3. Operands -/

/-- The value that a field holds, given what the labels stand for. -/
def Field.value? (address? : String → Option UInt32) : Field → Option UInt32
  | .byte b => some b.toUInt32
  | .value v _ => some v
  | .address label _ => address? label

/-- The value that an operand stands for: a register's number, a number itself
or the address of a label. -/
def OperandForm.value? (address? : String → Option UInt32) : OperandForm → Option UInt32
  | .register r | .indirectRegister r => some r.number.toUInt32
  | .immediate v | .indirectImmediate v => some v
  | .name label | .indirectName label => address? label
  | .text _ | .other _ => none

/-- What the decoder asks of the field of an operand at a place. -/
structure Readable (size : Option Size) (place : Nat) (c : OperandClass) (f : Field) : Prop where
  width : Instruction.widthFault? size place c (f.width : Int) = none
  fits : ∀ v s, f = .value v s → s.fits v = true
  register : c.usesRegister = true → ∃ r : Register, r.isAssigned = true ∧ f = .byte r.number

/-- The bytes of a field are those of some size and spell its value. -/
theorem Field.bytes?_spec {address? : String → Option UInt32} {f : Field} {bytes : List UInt8}
    (hfits : ∀ v s, f = .value v s → s.fits v = true) (h : f.bytes? address? = some bytes) :
    (∃ size : Size, f.width = size.bytes ∧ bytes.length = size.bytes) ∧
      f.value? address? = some (ofBytes bytes) := by
  cases f with
  | byte b =>
    cases h
    exact ⟨⟨.word, rfl, rfl⟩, by rw [ofBytes_singleton, Field.value?]⟩
  | value v size =>
    cases h
    exact ⟨⟨size, rfl, length_valueBytes v size⟩,
      by rw [ofBytes_valueBytes (hfits v size rfl), Field.value?]⟩
  | address label pos =>
    obtain ⟨a, ha, rfl⟩ := Option.map_eq_some_iff.mp h
    exact ⟨⟨.qword, rfl, rfl⟩, by rw [ofBytes_fourBytes, Field.value?, ha]⟩

/-- One operand is read, and then the rest. -/
theorem readOperands_cons {code : Array UInt8} {xs bytes ys : List UInt8} {size : Option Size}
    {place offset : Nat} {c : OperandClass} {f : Field} {address? : String → Option UInt32}
    (hr : Readable size place c f) (hbytes : f.bytes? address? = some bytes)
    (hcode : code.toList = xs ++ (bytes ++ ys)) (rest : List (OperandClass × Int)) :
    Instruction.readOperands code offset size place xs.length ((c, (f.width : Int)) :: rest) =
      (Instruction.readOperands code offset size (place + 1) (xs ++ bytes).length rest).map
        fun (os, stop) => (⟨c, ofBytes bytes, (f.width : Int)⟩ :: os, stop) := by
  obtain ⟨⟨width, hwidth, hlen⟩, -⟩ := f.bytes?_spec hr.fits hbytes
  have hread : readValue code xs.length (f.width : Int) = .ok (ofBytes bytes) := by
    rw [hwidth]
    exact readValue_bytes hcode hlen
  have hassigned : (c.usesRegister &&
      !(DecodedOperand.register ⟨c, ofBytes bytes, (f.width : Int)⟩).isAssigned) = false := by
    cases hc : c.usesRegister with
    | false => rfl
    | true =>
      obtain ⟨r, hra, rfl⟩ := hr.register hc
      cases hbytes
      simpa [DecodedOperand.register, ofBytes_singleton] using hra
  have hnext : (xs ++ bytes).length = xs.length + ((f.width : Int)).toNat := by
    rw [List.length_append, Int.toNat_natCast, hwidth, hlen]
  rw [hnext, Instruction.readOperands]
  simp only [hr.width, hread, hassigned, Bool.false_eq_true, if_false]
  cases Instruction.readOperands code offset size (place + 1)
    (xs.length + ((f.width : Int)).toNat) rest <;> rfl

namespace Encoding

/-- The field of an operand holds the operand's value. -/
theorem value?_fieldOf {o : Operand} {c : OperandClass} (hc : o.form.class? = some c)
    (size : Option Size) (address? : String → Option UInt32) :
    (fieldOf size o).value? address? = o.form.value? address? := by
  unfold fieldOf
  cases hform : o.form with
  | text s => rw [hform] at hc; cases hc
  | other tag => rw [hform] at hc; cases hc
  | _ => rfl

/-- The field of an operand can be read back if the size holds an immediate,
and if the size byte agrees with the width of an immediate source. -/
theorem readable_fieldOf {o : Operand} {c : OperandClass} {size size' : Option Size} {place : Nat}
    (hc : o.form.class? = some c)
    (hr : ∀ r, registerOf? o.form = some r → r.isAssigned = true)
    (hfits : ∀ v, o.form = .immediate v → (size'.getD (.least v)).fits v = true)
    (hwidth : ∀ s, size = some s → place = 1 → c = .immediate →
      (fieldOf size' o).width = s.bytes) :
    Readable size place c (fieldOf size' o) := by
  -- Only an immediate has a width that is not that of its class.
  have himmediate : c = .immediate → ∀ s : Size, (fieldOf size' o).width = s.bytes →
      Instruction.widthFault? size place c ((fieldOf size' o).width : Int) = none := by
    rintro rfl s hs
    simp only [Instruction.widthFault?, hs, ofWidth?_bytes, Option.isNone_some,
      Bool.false_eq_true, if_false]
    cases hsize : size with
    | none => rfl
    | some s' =>
      refine if_neg ?_
      rintro ⟨hplace, hne⟩
      exact hne (by rw [← hs, hwidth s' hsize hplace rfl])
  cases hform : o.form with
  | text s => rw [hform] at hc; cases hc
  | other tag => rw [hform] at hc; cases hc
  | immediate v =>
    rw [hform] at hc
    cases hc
    have hfield : fieldOf size' o = .value v (size'.getD (.least v)) := by rw [fieldOf, hform]
    refine ⟨himmediate rfl (size'.getD (.least v)) (by rw [hfield]; rfl), ?_, fun h => by cases h⟩
    intro w s hw
    rw [hfield] at hw
    cases hw
    exact hfits v hform
  | name label =>
    rw [hform] at hc
    cases hc
    have hfield : fieldOf size' o = .address label o.pos := by rw [fieldOf, hform]
    refine ⟨himmediate rfl .qword (by rw [hfield]; rfl), ?_, fun h => by cases h⟩
    intro w s hw
    rw [hfield] at hw
    cases hw
  | indirectName label =>
    rw [hform] at hc
    cases hc
    rw [fieldOf, hform]
    exact ⟨rfl, fun _ _ h => (nomatch h), fun h => by cases h⟩
  | indirectImmediate v =>
    rw [hform] at hc
    cases hc
    rw [fieldOf, hform]
    exact ⟨rfl, fun _ _ h => by cases h; rfl, fun h => by cases h⟩
  | register r | indirectRegister r =>
    rw [hform] at hc
    cases hc
    rw [fieldOf, hform]
    exact ⟨rfl, fun _ _ h => (nomatch h), fun _ => ⟨r, hr r (by rw [hform]; rfl), rfl⟩⟩

/-- A size byte stands in the instructions with a sized opcode and agrees with
the field of the source. -/
theorem sizeFor_eq_ok {op : Opcode} {m : Mnemonic} {operands : List Operand} {size : Option Size}
    (h : sizeFor op m operands = .ok size) :
    op.hasSize = size.isSome ∧
      ∀ s, size = some s → ∃ dst src, operands = [dst, src] ∧ sizeOf m src.form = .ok s := by
  unfold sizeFor at h
  split at h
  · rename_i hop
    split at h
    · rename_i dst src
      cases hs : sizeOf m src.form with
      | error f => simp [hs, Except.map] at h
      | ok s =>
        simp only [hs, Except.map, Except.ok.injEq] at h
        subst h
        refine ⟨hop, ?_⟩
        rintro _ ⟨⟩
        exact ⟨dst, src, rfl, hs⟩
    · cases h
  · rename_i hop
    cases h
    exact ⟨by simpa using hop, fun s hs => by cases hs⟩

/-- The size of a sized instruction holds its immediate source, and is that of
an address for a label. -/
theorem sizeOf_eq_ok {m : Mnemonic} {form : OperandForm} {s : Size} (h : sizeOf m form = .ok s) :
    (∀ v, form = .immediate v → s.fits v = true) ∧ (∀ l, form = .name l → s = .qword) := by
  refine ⟨?_, ?_⟩
  · rintro v rfl
    unfold sizeOf at h
    cases hm : m.size? with
    | none =>
      simp only [hm, Except.ok.injEq] at h
      exact h ▸ fits_least v
    | some stated =>
      simp only [hm] at h
      split at h
      · cases h; assumption
      · cases h
  · rintro l rfl
    cases h
    rfl

end Encoding

/-- The fields can be read back one after the other, from a place on. -/
def ReadableFrom (size : Option Size) : Nat → List OperandClass → List Field → Prop
  | _, [], [] => True
  | place, c :: cs, f :: fs => Readable size place c f ∧ ReadableFrom size (place + 1) cs fs
  | _, _, _ => False

/-- All operands are read. -/
theorem readOperands_bytes {code : Array UInt8} {xs bytes ys : List UInt8} {size : Option Size}
    {place : Nat} {cs : List OperandClass} {fs : List Field}
    {address? : String → Option UInt32} (offset : Nat) (hr : ReadableFrom size place cs fs)
    (hbytes : fieldBytes? address? fs = some bytes) (hcode : code.toList = xs ++ (bytes ++ ys)) :
    ∃ ds, Instruction.readOperands code offset size place xs.length
        (cs.zip (fs.map fun f => (f.width : Int))) = .ok (ds, (xs ++ bytes).length) ∧
      ds.map (·.operandClass) = cs ∧
      ds.map (fun d => some d.value) = fs.map (Field.value? address?) ∧
      ds.map (·.width) = fs.map fun f => (f.width : Int) := by
  induction fs generalizing cs place xs bytes with
  | nil =>
    cases cs with
    | cons c cs => cases hr
    | nil =>
      cases hbytes
      exact ⟨[], by simp [Instruction.readOperands], rfl, rfl, rfl⟩
  | cons f fs ih =>
    cases cs with
    | nil => cases hr
    | cons c cs =>
      obtain ⟨hf, hrest⟩ := hr
      obtain ⟨b, bs, hb, hbs, rfl⟩ := joined?_eq_some hbytes
      have hsplit : code.toList = xs ++ (b ++ (bs ++ ys)) := by rw [hcode, List.append_assoc]
      have htail : code.toList = (xs ++ b) ++ (bs ++ ys) := by rw [hsplit, List.append_assoc]
      obtain ⟨ds, hds, hclasses, hvalues, hwidths⟩ := ih hrest hbs htail
      refine ⟨⟨c, ofBytes b, (f.width : Int)⟩ :: ds, ?_, ?_, ?_, ?_⟩
      · rw [List.map_cons, List.zip_cons_cons, readOperands_cons hf hb hsplit, hds,
          List.append_assoc, Except.map]
      · rw [List.map_cons, hclasses]
      · rw [List.map_cons, List.map_cons, hvalues, (f.bytes?_spec hf.fits hb).2]
      · rw [List.map_cons, List.map_cons, hwidths]

namespace Encoding

/-- The fields of an instruction can be read back. -/
theorem readableFrom_fieldsOf {op : Opcode} {m : Mnemonic} {operands : List Operand} {mode : Mode}
    {size : Option Size} (hmode : modeOf operands = .ok mode)
    (hsize : sizeFor op m operands = .ok size) (hr : badRegister? operands = none) :
    ReadableFrom size 0 mode.classes (fieldsOf size operands) := by
  have hclass := modeOf_eq_ok hmode
  have hassigned : ∀ o ∈ operands, ∀ r, registerOf? o.form = some r → r.isAssigned = true :=
    fun o ho r => isAssigned_of_badRegister? hr ho
  have hdst : ∀ {dst c}, dst ∈ operands → dst.form.class? = some c →
      Readable size 0 c (fieldOf none dst) := fun {dst c} hmem hc =>
    readable_fieldOf hc (hassigned dst hmem) (fun v _ => fits_least v) (fun s _ h => by cases h)
  cases mode with
  | one c =>
    match operands, hclass with
    | [dst], .cons hc .nil => exact ⟨hdst (List.mem_singleton_self dst) hc, trivial⟩
  | two d s =>
    match operands, hclass with
    | [dst, src], .cons hd (.cons hs .nil) =>
      refine ⟨hdst (by simp) hd, readable_fieldOf hs (hassigned src (by simp)) ?_ ?_, trivial⟩
      · intro v hv
        cases hsz : size with
        | none => exact fits_least v
        | some sz =>
          obtain ⟨_, _, ⟨⟩, hof⟩ := (sizeFor_eq_ok hsize).2 sz hsz
          exact (sizeOf_eq_ok hof).1 v hv
      · rintro sz rfl - rfl
        obtain ⟨_, _, ⟨⟩, hof⟩ := (sizeFor_eq_ok hsize).2 sz rfl
        -- The source is a number, which takes the size, or a label.
        cases hform : src.form with
        | immediate v => rw [fieldOf, hform]; rfl
        | name label => rw [fieldOf, hform, (sizeOf_eq_ok hof).2 label hform]; rfl
        | _ => rw [hform] at hs; cases hs

end Encoding

/-! ## 4. Instructions -/

/-- What was read of some operands agrees with the operands as they were
written. -/
structure ReadBack (address? : String → Option UInt32) (e : Encoding) (operands : List Operand)
    (ds : List DecodedOperand) : Prop where
  operands : List.Forall₂ (fun o d => o.form.class? = some d.operandClass ∧
    o.form.value? address? = some d.value) operands ds
  widths : ds.map (·.width) = e.widths.map Int.ofNat

theorem getElem?_of_toList {code : Array UInt8} {xs ys : List UInt8} {b : UInt8}
    (hcode : code.toList = xs ++ b :: ys) : code[xs.length]? = some b := by
  rw [← Array.getElem?_toList, hcode, List.getElem?_append_right (Nat.le_refl _), Nat.sub_self,
    List.getElem?_cons_zero]

/-- The size byte is read where there is one. -/
theorem readSize_bytes {code : Array UInt8} {xs ys : List UInt8} {op : Opcode}
    {size : Option Size} (hop : op.hasSize = size.isSome)
    (hcode : code.toList = xs ++ ((size.map Size.code).toList ++ ys)) :
    Instruction.readSize code op xs.length =
      .ok (size, (xs ++ (size.map Size.code).toList).length) := by
  unfold Instruction.readSize
  cases size with
  | none => simp [hop]
  | some s =>
    rw [getElem?_of_toList hcode]
    simp [hop]

theorem forall₂_of_maps {address? : String → Option UInt32} {operands : List Operand}
    {ds : List DecodedOperand} {fields : List Field}
    (hclass : List.Forall₂ (fun o c => o.form.class? = some c) operands
      (ds.map (·.operandClass)))
    (hfields : List.Forall₂ (fun o f => f.value? address? = o.form.value? address?) operands fields)
    (hvalues : ds.map (fun d => some d.value) = fields.map (Field.value? address?)) :
    List.Forall₂ (fun o d => o.form.class? = some d.operandClass ∧
      o.form.value? address? = some d.value) operands ds := by
  induction ds generalizing operands fields with
  | nil =>
    cases hclass
    exact .nil
  | cons d ds ih =>
    cases hclass with
    | cons hc hcs =>
      cases hfields with
      | cons hf hfs =>
        rw [List.map_cons, List.map_cons, List.cons.injEq] at hvalues
        exact .cons ⟨hc, by rw [← hf, hvalues.1]⟩ (ih hcs hfs hvalues.2)

/-- The fields of an instruction hold the values of its operands. -/
theorem Encoding.value?_fieldsOf {operands : List Operand} {cs : List OperandClass}
    (hclass : List.Forall₂ (fun o c => o.form.class? = some c) operands cs) (size : Option Size)
    (address? : String → Option UInt32) :
    List.Forall₂ (fun o f => f.value? address? = o.form.value? address?) operands
      (fieldsOf size operands) := by
  have hrest : ∀ {os cs}, List.Forall₂ (fun o c => o.form.class? = some c) os cs →
      List.Forall₂ (fun (o : Operand) (f : Field) => f.value? address? = o.form.value? address?)
        os (os.map (fieldOf size)) := by
    intro os cs h
    induction h with
    | nil => exact .nil
    | cons hc _ ih => exact .cons (value?_fieldOf hc size address?) ih
  cases hclass with
  | nil => exact .nil
  | cons hc hcs => exact .cons (value?_fieldOf hc none address?) (hrest hcs)

/-- What stands behind the opcode is read back. -/
theorem readBody_bytes {op : Opcode} {m : Mnemonic} {operands : List Operand} {mode : Mode}
    {size : Option Size} {address? : String → Option UInt32} {code : Array UInt8}
    {xs bytes ys : List UInt8} {b : UInt8} (hmode : Encoding.modeOf operands = .ok mode)
    (hsize : Encoding.sizeFor op m operands = .ok size)
    (hregs : Encoding.badRegister? operands = none)
    (hbytes : fieldBytes? address? (Encoding.fieldsOf size operands) = some bytes)
    (hcode : code.toList =
      xs ++ b :: mode.code :: ((size.map Size.code).toList ++ (bytes ++ ys))) :
    ∃ ds, Instruction.readBody code xs.length op
        ((Encoding.fieldsOf size operands).map fun f => (f.width : Int)) =
          .ok (mode, size, ds, (xs ++ b :: mode.code ::
            ((size.map Size.code).toList ++ bytes)).length) ∧
      List.Forall₂ (fun o d => o.form.class? = some d.operandClass ∧
        o.form.value? address? = some d.value) operands ds ∧
      ds.map (·.width) = (Encoding.fieldsOf size operands).map fun f => (f.width : Int) := by
  have hclass := Encoding.modeOf_eq_ok hmode
  have hread := Encoding.readableFrom_fieldsOf hmode hsize hregs
  -- The image around the mode byte, around the size byte and around the fields.
  have hatMode : code.toList = (xs ++ [b]) ++
      mode.code :: ((size.map Size.code).toList ++ (bytes ++ ys)) := by simp [hcode]
  have hatSize : code.toList = (xs ++ [b, mode.code]) ++
      ((size.map Size.code).toList ++ (bytes ++ ys)) := by simp [hcode]
  have hatFields : code.toList =
      (xs ++ [b, mode.code] ++ (size.map Size.code).toList) ++ (bytes ++ ys) := by simp [hcode]
  have hmodeByte := getElem?_of_toList hatMode
  have hsizeByte := readSize_bytes (Encoding.sizeFor_eq_ok hsize).1 hatSize
  obtain ⟨ds, hds, hclasses, hvalues, hwidths⟩ :=
    readOperands_bytes xs.length hread hbytes hatFields
  have hcount : mode.classes.length = (Encoding.fieldsOf size operands).length := by
    rw [← hclasses, List.length_map, ← List.length_map (fun d : DecodedOperand => d.width),
      hwidths, List.length_map]
  refine ⟨ds, ?_, ?_, hwidths⟩
  · rw [List.length_append, List.length_singleton] at hmodeByte
    rw [List.length_append] at hsizeByte
    simp only [Instruction.readBody, hmodeByte, Mode.ofCode?_code, List.length_map, hcount,
      ne_eq, not_true_eq_false, if_false, bind, Except.bind]
    rw [show xs.length + 2 = xs.length + [b, mode.code].length from rfl, hsizeByte]
    simp only [hds, pure, Except.pure]
    simp only [List.append_assoc, List.cons_append, List.nil_append]
  · rw [← hclasses] at hclass
    exact forall₂_of_maps hclass (Encoding.value?_fieldsOf hclass size address?) hvalues

/-- An instruction is read back from its bytes, wherever they stand in an
image. -/
theorem decode_bytes {m : Mnemonic} {operands : List Operand} {e : Encoding}
    {address? : String → Option UInt32} {code : Array UInt8} {xs bytes ys : List UInt8}
    (he : Encoding.of m operands = .ok e) (hbytes : e.bytes? address? = some bytes)
    (hcode : code.toList = xs ++ (bytes ++ ys)) (hbound : xs.length < 2 ^ 32) :
    ∃ ds, Instruction.decode code (e.layout xs.length) =
        .ok ⟨UInt32.ofNat xs.length, e.opcode, e.mode, e.size, ds, e.length⟩ ∧
      ReadBack address? e operands ds := by
  have hoffset : (e.layout xs.length).offset.toNat = xs.length :=
    UInt32.toNat_ofNat_of_lt hbound
  have hlength := e.length_of_bytes? hbytes
  obtain ⟨-, bs, ⟨⟩, hbs, rfl⟩ := joined?_eq_some hbytes
  have hop : code[xs.length]? = some e.opcode.code := getElem?_of_toList hcode
  have hcheck : ∀ i : Instruction, i.length = e.length →
      Instruction.checkLength (e.layout xs.length) i = .ok i := by
    intro i hi
    refine if_neg ?_
    rintro ⟨-, hne⟩
    exact hne (by rw [hi]; rfl)
  obtain ⟨-, hnone | ⟨mode, hemode, hmode, hsize, hregs, hfields⟩⟩ := Encoding.of_eq_ok he
  · obtain ⟨rfl, hm, hs, hf⟩ := hnone
    have hone : e.length = 1 := by
      simp [Encoding.length_eq, Encoding.head, Encoding.widths, hm, hs, hf]
    have hempty : (e.layout xs.length).widths.isEmpty = true := by
      simp [Encoding.layout, Encoding.widths, hf]
    refine ⟨[], ?_, .nil, by simp [Encoding.widths, hf]⟩
    simp only [Instruction.decode, hoffset, hop, Opcode.ofCode?_code]
    rw [if_pos hempty, hm, hs, hone]
    exact hcheck _ hone.symm
  · have hhead : e.head = e.opcode.code :: mode.code :: (e.size.map Size.code).toList := by
      rw [Encoding.head, hemode]
      rfl
    rw [hfields] at hbs
    have hsplit : code.toList = xs ++ e.opcode.code :: mode.code ::
        ((e.size.map Size.code).toList ++ (bs ++ ys)) := by
      rw [hcode, hhead]
      simp only [List.cons_append, List.append_assoc]
    obtain ⟨ds, hbody, hoperands, hwidths⟩ := readBody_bytes hmode hsize hregs hbs hsplit
    have hstop : (xs ++ e.opcode.code :: mode.code ::
        ((e.size.map Size.code).toList ++ bs)).length - xs.length = e.length := by
      rw [← hlength, hhead, List.length_append, Nat.add_sub_cancel_left]
      rfl
    have hlayout : (e.layout xs.length).widths =
        (Encoding.fieldsOf e.size operands).map fun f => (f.width : Int) := by
      rw [Encoding.layout, Encoding.widths, hfields, List.map_map]
      rfl
    have hfull : (e.layout xs.length).widths.isEmpty = false := by
      rw [hlayout]
      cases operands with
      | nil => cases hmode
      | cons o rest => rfl
    refine ⟨ds, ?_, hoperands, by rw [hwidths, ← hlayout]; rfl⟩
    simp only [Instruction.decode, hoffset, hop, Opcode.ofCode?_code, hfull, Bool.false_eq_true,
      if_false]
    rw [hlayout, hbody, hemode]
    simp only [bind, Except.bind, hstop]
    exact hcheck _ rfl

/-! ## 5. Programs -/

def Statement.isInstruction : Statement → Bool
  | .instruction _ _ _ => true
  | _ => false

/-- A statement of a program has its bytes in the image, behind those of the
statements before it. -/
theorem imageFrom?_split {rule : NameRule} {earlier : List Declaration} {address : Nat}
    {before after : List Statement} {s : Statement} {bytes : List UInt8}
    (h : imageFrom? rule earlier address (before ++ s :: after) = some bytes) :
    ∃ xs bs ys, bytes = xs ++ (bs ++ ys) ∧ xs.length = sizeSum before ∧
      s.bytes? (rule.address? (earlier ++ declarationsFrom address before)
        (declarationsFrom (address + sizeSum before) (s :: after))) = some bs := by
  induction before generalizing earlier address bytes with
  | nil =>
    obtain ⟨bs, ys, hbs, -, rfl⟩ := joined?_eq_some h
    exact ⟨[], bs, ys, rfl, rfl, by rw [declarationsFrom, List.append_nil]; exact hbs⟩
  | cons t rest ih =>
    obtain ⟨first, tail, hfirst, htail, rfl⟩ := joined?_eq_some h
    obtain ⟨xs, bs, ys, rfl, hlen, hbs⟩ := ih htail
    refine ⟨first ++ xs, bs, ys, by rw [List.append_assoc], ?_, ?_⟩
    · rw [List.length_append, t.length_of_bytes? hfirst, hlen, sizeSum_cons]
    · rw [List.append_assoc, Nat.add_assoc] at hbs
      exact hbs

theorem length_layouts {s : Statement} (h : s.isEncodable = true) (address : Nat) :
    (s.layouts address).length = [s].countP (·.isInstruction) := by
  cases s with
  | instruction m operands pos =>
    obtain ⟨e, he⟩ := (Statement.isEncodable_instruction_iff pos).mp h
    rw [Statement.layouts_instruction he]
    rfl
  | _ => rfl

/-- There is one place for each instruction. -/
theorem length_layoutsFrom {ss : List Statement} (h : ∀ s ∈ ss, s.isEncodable = true)
    (address : Nat) : (layoutsFrom address ss).length = ss.countP (·.isInstruction) := by
  induction ss generalizing address with
  | nil => rfl
  | cons s rest ih =>
    rw [layoutsFrom, List.length_append, length_layouts (h s List.mem_cons_self),
      ih (fun t ht => h t (List.mem_cons_of_mem s ht)), ← List.countP_append,
      List.singleton_append]

/-- A place is that of an instruction with as many instructions before it. -/
theorem layoutsFrom_getElem? {ss : List Statement} (h : ∀ s ∈ ss, s.isEncodable = true)
    {address i : Nat} {l : Layout} (hl : (layoutsFrom address ss)[i]? = some l) :
    ∃ before m operands pos after e, ss = before ++ .instruction m operands pos :: after ∧
      before.countP (·.isInstruction) = i ∧ Encoding.of m operands = .ok e ∧
      l = e.layout (address + sizeSum before) := by
  induction ss generalizing address i with
  | nil => simp [layoutsFrom] at hl
  | cons s rest ih =>
    have hrest : ∀ t ∈ rest, t.isEncodable = true := fun t ht => h t (List.mem_cons_of_mem s ht)
    have hs := length_layouts (h s List.mem_cons_self) address
    rw [layoutsFrom] at hl
    by_cases hi : i < (s.layouts address).length
    · -- Only an instruction has a place, and it has one.
      rw [List.getElem?_append_left hi] at hl
      cases s with
      | instruction m operands pos =>
        obtain ⟨e, he⟩ := (Statement.isEncodable_instruction_iff pos).mp (h _ List.mem_cons_self)
        rw [Statement.layouts_instruction he] at hl hi
        rw [List.length_singleton, Nat.lt_one_iff] at hi
        subst hi
        cases hl
        exact ⟨[], m, operands, pos, rest, e, rfl, rfl, he, rfl⟩
      | _ => simp [Statement.layouts] at hl
    · rw [List.getElem?_append_right (Nat.le_of_not_lt hi)] at hl
      obtain ⟨before, m, operands, pos, after, e, rfl, hcount, he, rfl⟩ := ih hrest hl
      refine ⟨s :: before, m, operands, pos, after, e, rfl, ?_, he, ?_⟩
      · rw [List.countP_cons, hcount]
        rw [List.countP_singleton] at hs
        omega
      · rw [sizeSum_cons, Nat.add_assoc]

/-- What is known of an instruction that was read: it is the one that was
written, its operands resolved. -/
structure Instruction.IsReadBackOf (i : Instruction) (m : Mnemonic) (operands : List Operand)
    (address? : String → Option UInt32) : Prop where
  opcode : m.opcode? = some i.opcode
  /-- There is a mode if there are operands, and it has their classes. -/
  mode : i.mode.isSome = !operands.isEmpty ∧
    ∀ mode, i.mode = some mode → operands.map (·.form.class?) = mode.classes.map some
  /-- There is a size byte if there are operands and the opcode is sized. -/
  hasSize : i.size.isSome = (i.opcode.hasSize && !operands.isEmpty)
  size : ∀ s, i.size = some s →
    ∃ dst src, operands = [dst, src] ∧ Encoding.sizeOf m src.form = .ok s
  operands : List.Forall₂ (fun o d => o.form.class? = some d.operandClass ∧
    o.form.value? address? = some d.value) operands i.operands

/-- The parts that the encoder chose are those that are read back. -/
theorem Encoding.isReadBackOf {m : Mnemonic} {operands : List Operand} {e : Encoding}
    {address? : String → Option UInt32} {ds : List DecodedOperand}
    (he : Encoding.of m operands = .ok e) (hds : ReadBack address? e operands ds)
    (address : UInt32) :
    Instruction.IsReadBackOf ⟨address, e.opcode, e.mode, e.size, ds, e.length⟩ m operands
      address? := by
  obtain ⟨hop, ⟨rfl, hm, hs, -⟩ | ⟨mode, hm, hmode, hsize, -, -⟩⟩ := Encoding.of_eq_ok he
  · refine ⟨hop, ⟨by rw [hm]; rfl, ?_⟩, by simp [hs], ?_, hds.operands⟩
    · intro mode hmode
      rw [hm] at hmode
      cases hmode
    · intro s hs'
      rw [hs] at hs'
      cases hs'
  · have hfull : operands.isEmpty = false := by
      cases operands with
      | nil => cases hmode
      | cons o rest => rfl
    obtain ⟨hsome, hof⟩ := sizeFor_eq_ok hsize
    refine ⟨hop, ⟨by rw [hm, hfull]; rfl, ?_⟩, by simp [hfull, hsome], hof, hds.operands⟩
    rintro mode' hmode'
    rw [hm] at hmode'
    cases hmode'
    have hmaps : ∀ {os : List Operand} {cs : List OperandClass},
        List.Forall₂ (fun o c => o.form.class? = some c) os cs →
        os.map (·.form.class?) = cs.map some := by
      intro os cs h
      induction h with
      | nil => rfl
      | cons hc _ ih => rw [List.map_cons, List.map_cons, hc, ih]
    exact hmaps (modeOf_eq_ok hmode)

/-- Every instruction of an assembled program is read back at its place. -/
theorem Assembled.decode {program : List Statement} {image : Image} {run : Run}
    (hasm : Assembled program image run) (hsize : image.size < 2 ^ 32)
    {before after : List Statement} {m : Mnemonic} {operands : List Operand} {pos : Position}
    (hsplit : unroll program = before ++ .instruction m operands pos :: after) {e : Encoding}
    (he : Encoding.of m operands = .ok e) :
    sizeSum before < 2 ^ 32 ∧
    ∃ ds, Instruction.decode image (e.layout (sizeSum before)) =
        .ok ⟨UInt32.ofNat (sizeSum before), e.opcode, e.mode, e.size, ds, e.length⟩ ∧
      ReadBack (deferredRule.address? (declarationsFrom 0 before)
        (declarationsFrom (sizeSum before) (.instruction m operands pos :: after))) e operands
          ds := by
  have hbytes := hasm.bytes
  rw [hsplit] at hbytes
  obtain ⟨xs, bs, ys, hcode, hlen, hbs⟩ := imageFrom?_split hbytes
  rw [List.nil_append, Nat.zero_add] at hbs
  obtain ⟨e', he', hbs⟩ := Statement.bytes?_instruction_eq_some_iff.mp hbs
  cases he.symm.trans he'
  have hle : xs.length ≤ image.size := by
    rw [← Array.length_toList, hcode, List.length_append]
    exact Nat.le_add_right _ _
  have hbound : xs.length < 2 ^ 32 := Nat.lt_of_le_of_lt hle hsize
  rw [← hlen]
  rw [← hlen] at hbs
  exact ⟨hbound, decode_bytes he hbs hcode hbound⟩

/-- Reading the image back gives the instructions that were written: there is a
place for each of them, and what is read at the place with number `i` is the
instruction with number `i`, at the address where it was put, with every
operand's value in full. -/
theorem decode_assembled {a a' : Assembler} {program : List Statement} {image : Image}
    (h : a.assembleProgram program = (.ok image, a')) (hsize : image.size < 2 ^ 32) :
    a'.layouts.length = (unroll program).countP (·.isInstruction) ∧
    ∀ i l, a'.layouts[i]? = some l →
      ∃ before m operands pos after inst,
        unroll program = before ++ .instruction m operands pos :: after ∧
        before.countP (·.isInstruction) = i ∧
        Instruction.decode image l = .ok inst ∧
        inst.address.toNat = sizeSum before ∧
        (inst.length : Int) = l.length ∧
        inst.IsReadBackOf m operands (deferredRule.address? (declarationsFrom 0 before)
          (declarationsFrom (sizeSum before) (.instruction m operands pos :: after))) := by
  have hasm := Assembler.assembled h hsize
  refine ⟨?_, ?_⟩
  · rw [Assembler.layouts, hasm.layouts, length_layoutsFrom hasm.encodable]
  · intro i l hl
    rw [Assembler.layouts, hasm.layouts] at hl
    obtain ⟨before, m, operands, pos, after, e, hsplit, hcount, he, rfl⟩ :=
      layoutsFrom_getElem? hasm.encodable hl
    rw [Nat.zero_add]
    obtain ⟨hbound, ds, hdecode, hds⟩ := hasm.decode hsize hsplit he
    exact ⟨before, m, operands, pos, after, _, hsplit, hcount, hdecode,
      UInt32.toNat_ofNat_of_lt hbound, rfl,
      Encoding.isReadBackOf he hds (UInt32.ofNat (sizeSum before))⟩

/-- A repeated move of a label that is declared behind it, and a move whose
stated size is larger than its value needs. -/
def forwardMoves : List Statement :=
  [.times 2 (.instruction (.op .mov)
      [⟨.indirectRegister ⟨1⟩, .nowhere⟩, ⟨.name "end", .nowhere⟩] .nowhere) .nowhere,
    .instruction (.sizedMove .dword)
      [⟨.register ⟨0⟩, .nowhere⟩, ⟨.immediate 7, .nowhere⟩] .nowhere,
    .label "end" .nowhere,
    .instruction (.op .hlt) [] .nowhere]

theorem decode_assembled_forwardMoves :
    ∃ image a', ({} : Assembler).assembleProgram forwardMoves = (.ok image, a') ∧
      image.size < 2 ^ 32 ∧ a'.layouts.length = 4 ∧
      ∀ (i : Nat) (l : Layout), a'.layouts[i]? = some l →
        ∃ inst, Instruction.decode image l = .ok inst := by
  obtain ⟨image, hi⟩ : ∃ image, (({} : Assembler).assembleProgram forwardMoves).1 = .ok image :=
    ⟨_, rfl⟩
  have hrun : ({} : Assembler).assembleProgram forwardMoves =
      (.ok image, (({} : Assembler).assembleProgram forwardMoves).2) := by
    rw [← hi]
  have hsize : image.size < 2 ^ 32 := by
    cases hi
    decide
  obtain ⟨hcount, hread⟩ := decode_assembled hrun hsize
  refine ⟨image, _, hrun, hsize, hcount.trans (by decide), ?_⟩
  intro i l hl
  obtain ⟨-, -, -, -, -, inst, -, -, hinst, -⟩ := hread i l hl
  exact ⟨inst, hinst⟩

end RegAsm
