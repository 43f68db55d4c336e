/-
RegAsm.Proofs.Footprint — the bytes that an instruction is read from.

Reading succeeds exactly if the bytes of the instruction that is read stand at
the offset and the instruction fits its layout (`decode_eq_ok_iff`).  The
layout is not looked at again, so the instruction tells its bytes, and no byte
around them matters.

1. Bytes at an index.
2. Values.
3. Operands.
4. Instructions.
-/
import RegAsm.Proofs.Reencoding

namespace RegAsm

open Machine

/-! ## 1. Bytes at an index -/

/-- Some bytes stand in an image, the first one at an index. -/
def HoldsAt (image : Image) : Nat → List UInt8 → Prop
  | _, [] => True
  | index, b :: rest => image[index]? = some b ∧ HoldsAt image (index + 1) rest

section HoldsAt

variable {image image' : Image} {index : Nat} {bytes : List UInt8}

theorem holdsAt_append {xs ys : List UInt8} :
    HoldsAt image index (xs ++ ys) ↔
      HoldsAt image index xs ∧ HoldsAt image (index + xs.length) ys := by
  induction xs generalizing index with
  | nil => simp [HoldsAt]
  | cons b xs ih =>
    rw [List.cons_append, HoldsAt, HoldsAt, ih, List.length_cons, and_assoc, Nat.add_assoc,
      Nat.add_comm 1]

theorem holdsAt_iff :
    HoldsAt image index bytes ↔ ∀ k < bytes.length, image[index + k]? = bytes[k]? := by
  induction bytes generalizing index with
  | nil => simp [HoldsAt]
  | cons b rest ih =>
    rw [HoldsAt, ih]
    constructor
    · rintro ⟨hb, hrest⟩ k hk
      cases k with
      | zero => exact hb
      | succ k =>
        rw [List.getElem?_cons_succ, ← hrest k (Nat.lt_of_succ_lt_succ hk), Nat.add_assoc,
          Nat.add_comm 1]
    · intro h
      refine ⟨h 0 (Nat.zero_lt_succ _), fun k hk => ?_⟩
      rw [Nat.add_assoc, Nat.add_comm 1, h (k + 1) (Nat.succ_lt_succ hk), List.getElem?_cons_succ]

theorem HoldsAt.inside (h : HoldsAt image index bytes) (hne : bytes ≠ []) :
    index + bytes.length ≤ image.size := by
  have hpos : 0 < bytes.length := List.length_pos_iff.mpr hne
  have hlast := holdsAt_iff.mp h (bytes.length - 1) (by omega)
  rw [List.getElem?_eq_getElem (by omega)] at hlast
  obtain ⟨hlt, -⟩ := Array.getElem?_eq_some_iff.mp hlast
  omega

theorem HoldsAt.extract (h : HoldsAt image index bytes) :
    (image.extract index (index + bytes.length)).toList = bytes := by
  by_cases hne : bytes = []
  · simp [hne]
  · have hinside := h.inside hne
    refine List.ext_getElem? fun k => ?_
    rw [Array.getElem?_toList]
    by_cases hk : k < bytes.length
    · rw [← holdsAt_iff.mp h k hk, Array.getElem?_extract_of_lt (by omega),
        Array.getElem?_eq_getElem (by omega)]
    · rw [List.getElem?_eq_none (by omega), Array.getElem?_eq_none]
      rw [Array.size_extract]
      omega

theorem HoldsAt.eq_toList (h : HoldsAt image 0 bytes) (hsize : bytes.length = image.size) :
    bytes = image.toList := by
  rw [← h.extract, Nat.zero_add, hsize, Array.extract_size]

theorem holdsAt_extract {stop : Nat} (h : stop ≤ image.size) :
    HoldsAt image index (image.extract index stop).toList := by
  refine holdsAt_iff.mpr fun k hk => ?_
  rw [Array.length_toList, Array.size_extract] at hk
  rw [Array.getElem?_toList, Array.getElem?_extract_of_lt (by omega),
    Array.getElem?_eq_getElem (by omega)]

/-- Images that hold the same bytes agree there, and an image that agrees with
one that holds some bytes holds them too. -/
theorem HoldsAt.iff_agree (h : HoldsAt image index bytes) :
    HoldsAt image' index bytes ↔
      ∀ k, index ≤ k → k < index + bytes.length → image'[k]? = image[k]? := by
  rw [holdsAt_iff] at h ⊢
  constructor
  · intro h' k hlow hhigh
    have hk := Nat.add_sub_of_le hlow
    rw [← hk, h' (k - index) (by omega), h (k - index) (by omega)]
  · intro hagree k hk
    rw [hagree (index + k) (Nat.le_add_right _ _) (by omega), h k hk]

end HoldsAt

/-! ## 2. Values -/

theorem ofBytes_lt {bytes : List UInt8} (h : bytes.length ≤ 4) :
    (ofBytes bytes).toNat < 256 ^ bytes.length := by
  induction bytes with
  | nil => decide
  | cons b rest ih =>
    rw [List.length_cons] at h ⊢
    have hrest := ih (by omega)
    have hpow : 256 ^ rest.length ≤ 256 ^ 3 := Nat.pow_le_pow_right (by decide) (by omega)
    have hb := b.toNat_lt
    rw [toNat_ofBytes_cons b (by omega), Nat.pow_succ]
    omega

/-- As many bytes spell another number. -/
theorem ofBytes_inj {xs ys : List UInt8} (hxs : xs.length ≤ 4) (hlen : xs.length = ys.length)
    (h : ofBytes xs = ofBytes ys) : xs = ys := by
  induction xs generalizing ys with
  | nil => exact (List.length_eq_zero_iff.mp hlen.symm).symm
  | cons b xs ih =>
    cases ys with
    | nil => cases hlen
    | cons c ys =>
      rw [List.length_cons] at hxs hlen
      rw [List.length_cons] at hlen
      have hshort : ∀ zs : List UInt8, zs.length ≤ 3 → (ofBytes zs).toNat < 2 ^ 24 := by
        intro zs hzs
        have hpow : 256 ^ zs.length ≤ 256 ^ 3 := Nat.pow_le_pow_right (by decide) hzs
        exact Nat.lt_of_lt_of_le (ofBytes_lt (by omega)) hpow
      have hnat := congrArg UInt32.toNat h
      rw [toNat_ofBytes_cons b (hshort xs (by omega)), toNat_ofBytes_cons c (hshort ys (by omega))]
        at hnat
      have hb := b.toNat_lt
      have hc := c.toNat_lt
      have hhead : b = c := UInt8.toNat_inj.mp (by omega)
      have htail : ofBytes xs = ofBytes ys := UInt32.toNat_inj.mp (by omega)
      rw [hhead, ih (by omega) (by omega) htail]

theorem Machine.Size.bytes_pos (size : Size) : 0 < size.bytes := by
  cases size <;> decide

theorem Machine.Size.bytes_le (size : Size) : size.bytes ≤ 4 := by
  cases size <;> decide

theorem fits_ofBytes {bytes : List UInt8} {size : Size} (h : bytes.length = size.bytes) :
    size.fits (ofBytes bytes) = true := by
  have hle := size.bytes_le
  have hlt : (ofBytes bytes).toNat < 256 ^ bytes.length := ofBytes_lt (by omega)
  rw [h] at hlt
  cases size with
  | word | dword =>
    simp only [Size.bytes] at hlt
    simp only [Size.fits, decide_eq_true_eq, UInt32.le_iff_toNat_le, UInt32.reduceToNat]
    omega
  | qword => rfl

/-- The bytes of the number that some bytes spell are these bytes. -/
theorem valueBytes_ofBytes {bytes : List UInt8} {size : Size} (h : bytes.length = size.bytes) :
    valueBytes (ofBytes bytes) size = bytes := by
  have hle := size.bytes_le
  refine ofBytes_inj ?_ ?_ (ofBytes_valueBytes (fits_ofBytes h))
  · rwa [length_valueBytes]
  · rw [length_valueBytes, h]

theorem valueBytes_ne_nil (v : UInt32) (size : Size) : valueBytes v size ≠ [] := by
  cases size <;> simp [valueBytes, fourBytes]

theorem bytes_of_ofWidth? {width : Int} {size : Size} (h : Size.ofWidth? width = some size) :
    width = size.bytes := by
  unfold Size.ofWidth? at h
  split at h <;> cases h <;> rfl

/-- A value is read exactly if its bytes, as many as the width asks for, stand
there. -/
theorem readValue_eq_ok_iff {image : Image} {index : Nat} {width : Int} {v : UInt32} :
    readValue image index width = .ok v ↔
      ∃ size, Size.ofWidth? width = some size ∧ size.fits v = true ∧
        HoldsAt image index (valueBytes v size) := by
  constructor
  · intro h
    unfold readValue at h
    simp only at h
    split at h
    · cases h
    · rename_i hleft
      split at h
      · rename_i size hsize
        cases h
        have hwidth := bytes_of_ofWidth? hsize
        have hpos := size.bytes_pos
        have hstop : index + size.bytes ≤ image.size := by omega
        have hlen : (image.extract index (index + size.bytes)).toList.length = size.bytes := by
          rw [Array.length_toList, Array.size_extract]
          omega
        refine ⟨size, hsize, fits_ofBytes hlen, ?_⟩
        rw [valueBytes_ofBytes hlen]
        exact holdsAt_extract hstop
      · cases h
  · rintro ⟨size, hsize, hfits, hholds⟩
    have hwidth := bytes_of_ofWidth? hsize
    have hinside := hholds.inside (valueBytes_ne_nil v size)
    have hbytes := hholds.extract
    rw [length_valueBytes] at hinside hbytes
    have hleft : ¬ ((image.size - index : Nat) : Int) < width := by omega
    simp only [readValue, if_neg hleft, hsize, hbytes, ofBytes_valueBytes hfits]

/-! ## 3. Operands -/

/-- What is checked of an operand at a place, apart from its bytes. -/
structure DecodedOperand.Sound (size : Option Size) (place : Nat) (o : DecodedOperand) : Prop where
  width : Instruction.widthFault? size place o.operandClass o.width = none
  fits : ∃ s, Size.ofWidth? o.width = some s ∧ s.fits o.value = true
  register : o.operandClass.usesRegister = true → o.register.isAssigned = true

theorem DecodedOperand.bytes_eq {o : DecodedOperand} {s : Size}
    (h : Size.ofWidth? o.width = some s) : o.bytes = valueBytes o.value s := by
  rw [DecodedOperand.bytes, h, Option.getD_some]

/-- Operands of the stated classes and widths that pass the checks, the first of
them at a place. -/
def SoundFrom (size : Option Size) :
    Nat → List (OperandClass × Int) → List DecodedOperand → Prop
  | _, [], [] => True
  | place, part :: parts, o :: os =>
    part = (o.operandClass, o.width) ∧ o.Sound size place ∧ SoundFrom size (place + 1) parts os
  | _, _, _ => False

/-! ### Codes -/

theorem sizeOfCode?_eq_some_iff {b : UInt8} {size : Size} :
    Size.ofCode? b = some size ↔ b = size.code := by
  constructor
  · intro h
    unfold Size.ofCode? at h
    split at h <;> cases h <;> rfl
  · rintro rfl
    exact ofCode?_sizeCode size

/-- An answer has the code it was looked up by, if that is so for every byte. -/
theorem eq_code_of_forall_byte {α : Type} {ofCode? : UInt8 → Option α} {code : α → UInt8}
    (hall : ∀ n < 256, (ofCode? (UInt8.ofNat n)).all (UInt8.ofNat n = code ·) = true)
    {b : UInt8} {a : α} (h : ofCode? b = some a) : b = code a := by
  have hb := hall b.toNat b.toNat_lt
  rw [UInt8.ofNat_toNat, h] at hb
  simpa using hb

theorem modeOfCode?_eq_some_iff {b : UInt8} {mode : Mode} :
    Mode.ofCode? b = some mode ↔ b = mode.code := by
  constructor
  · exact eq_code_of_forall_byte (by decide +kernel)
  · rintro rfl
    exact Mode.ofCode?_code mode

theorem opcodeOfCode?_eq_some_iff {b : UInt8} {op : Opcode} :
    Opcode.ofCode? b = some op ↔ b = op.code := by
  constructor
  · exact eq_code_of_forall_byte (by decide +kernel)
  · rintro rfl
    exact Opcode.ofCode?_code op

namespace Instruction

variable {image : Image}

/-- Operands are read exactly if they pass the checks and their bytes stand one
behind the other. -/
theorem readOperands_eq_ok_iff {offset : Nat} {size : Option Size} {place index : Nat}
    {parts : List (OperandClass × Int)} {os : List DecodedOperand} {stop : Nat} :
    readOperands image offset size place index parts = .ok (os, stop) ↔
      SoundFrom size place parts os ∧ HoldsAt image index (os.flatMap DecodedOperand.bytes) ∧
        stop = index + (os.flatMap DecodedOperand.bytes).length := by
  induction parts generalizing place index os with
  | nil =>
    cases os with
    | nil => simp [readOperands, SoundFrom, HoldsAt, eq_comm]
    | cons o os => simp [readOperands, SoundFrom]
  | cons part parts ih =>
    obtain ⟨c, width⟩ := part
    constructor
    · intro h
      rw [readOperands] at h
      split at h
      · cases h
      · rename_i hwidth
        split at h
        · cases h
        · rename_i v hv
          simp only at h
          split at h
          · cases h
          · rename_i hregister
            cases hrest : readOperands image offset size (place + 1) (index + width.toNat)
              parts with
            | error e => simp [hrest, bind, Except.bind] at h
            | ok tail =>
              simp only [hrest, bind, Except.bind, pure, Except.pure, Except.ok.injEq,
                Prod.mk.injEq] at h
              obtain ⟨rfl, rfl⟩ := h
              obtain ⟨s, hs, hfits, hholds⟩ := readValue_eq_ok_iff.mp hv
              obtain ⟨hsound, hholds', hstop⟩ := ih.mp hrest
              have hbytes := DecodedOperand.bytes_eq (o := ⟨c, v, width⟩) hs
              have hnext : index + width.toNat =
                  index + (DecodedOperand.bytes ⟨c, v, width⟩).length := by
                rw [hbytes, length_valueBytes, bytes_of_ofWidth? hs, Int.toNat_natCast]
              refine ⟨⟨rfl, ⟨hwidth, ⟨s, hs, hfits⟩, by simpa using hregister⟩, hsound⟩, ?_, ?_⟩
              · rw [List.flatMap_cons, holdsAt_append, ← hnext, hbytes]
                exact ⟨hholds, hholds'⟩
              · rw [hstop, hnext, List.flatMap_cons, List.length_append, Nat.add_assoc]
    · rintro ⟨hsound, hholds, hstop⟩
      cases os with
      | nil => cases hsound
      | cons o os =>
        obtain ⟨hpart, ⟨hwidth, ⟨s, hs, hfits⟩, hregister⟩, hsound⟩ := hsound
        obtain ⟨rfl, rfl⟩ := Prod.mk.injEq .. ▸ hpart
        have hbytes := DecodedOperand.bytes_eq hs
        rw [List.flatMap_cons, holdsAt_append] at hholds
        rw [List.flatMap_cons, List.length_append, ← Nat.add_assoc] at hstop
        have hnext : index + o.width.toNat = index + o.bytes.length := by
          rw [hbytes, length_valueBytes, bytes_of_ofWidth? hs, Int.toNat_natCast]
        have hv : readValue image index o.width = .ok o.value :=
          readValue_eq_ok_iff.mpr ⟨s, hs, hfits, hbytes ▸ hholds.1⟩
        have hrest := ih.mpr ⟨hsound, hholds.2, hstop⟩
        have hassigned : ¬ (o.operandClass.usesRegister && !o.register.isAssigned) = true := by
          simpa using hregister
        rw [readOperands, hwidth]
        simp only [hv, hassigned, hnext, hrest]
        rfl

/-- The size byte is read exactly if it stands there, where the opcode asks for
one. -/
theorem readSize_eq_ok_iff {op : Opcode} {index stop : Nat} {size : Option Size} :
    readSize image op index = .ok (size, stop) ↔
      size.isSome = op.hasSize ∧ HoldsAt image index (size.map Size.code).toList ∧
        stop = index + (size.map Size.code).toList.length := by
  constructor
  · intro h
    unfold readSize at h
    split at h
    · rename_i hop
      split at h
      · rename_i s hs
        cases h
        obtain ⟨b, hb, hcode⟩ := Option.bind_eq_some_iff.mp hs
        rw [sizeOfCode?_eq_some_iff] at hcode
        exact ⟨hop.symm, ⟨hcode ▸ hb, trivial⟩, rfl⟩
      · cases h
    · rename_i hop
      cases h
      exact ⟨(Bool.eq_false_of_not_eq_true hop).symm, trivial, rfl⟩
  · rintro ⟨hsome, hholds, rfl⟩
    cases size with
    | none => simp [readSize, ← hsome]
    | some s => simp [readSize, ← hsome, hholds.1]

/-! ## 4. Instructions -/

/-- What stands behind the opcode is read exactly if its bytes stand there and
the operands pass the checks. -/
theorem readBody_eq_ok_iff {offset : Nat} {op : Opcode} {widths : List Int} {mode : Mode}
    {size : Option Size} {os : List DecodedOperand} {stop : Nat} :
    readBody image offset op widths = .ok (mode, size, os, stop) ↔
      (mode.classes.length = widths.length ∧ size.isSome = op.hasSize ∧
        SoundFrom size 0 (mode.classes.zip widths) os) ∧
      HoldsAt image (offset + 1) (mode.code :: ((size.map Size.code).toList ++
        os.flatMap DecodedOperand.bytes)) ∧
      stop = offset + 2 + ((size.map Size.code).toList ++
        os.flatMap DecodedOperand.bytes).length := by
  rw [HoldsAt, holdsAt_append, List.length_append]
  constructor
  · intro h
    unfold readBody at h
    split at h
    · cases h
    · rename_i b hb
      split at h
      · cases h
      · rename_i mode' hmode
        split at h
        · cases h
        · rename_i hcount
          cases hread : readSize image op (offset + 2) with
          | error e => simp [hread, bind, Except.bind] at h
          | ok sized =>
            simp only [hread, bind, Except.bind] at h
            cases hrest : readOperands image offset sized.1 0 sized.2
                (mode'.classes.zip widths) with
            | error e => simp [hrest] at h
            | ok result =>
              simp only [hrest, pure, Except.pure, Except.ok.injEq, Prod.mk.injEq] at h
              obtain ⟨rfl, rfl, rfl, rfl⟩ := h
              obtain ⟨hsome, hsize, hindex⟩ := readSize_eq_ok_iff.mp hread
              obtain ⟨hsound, hholds, hstop⟩ := readOperands_eq_ok_iff.mp hrest
              rw [modeOfCode?_eq_some_iff] at hmode
              rw [hindex] at hholds hstop
              exact ⟨⟨by simpa using hcount, hsome, hsound⟩, ⟨hmode ▸ hb, hsize, hholds⟩,
                by rw [hstop, Nat.add_assoc]⟩
  · rintro ⟨⟨hcount, hsome, hsound⟩, ⟨hmode, hsize, hholds⟩, rfl⟩
    have hread : readSize image op (offset + 2) = .ok (size, _) :=
      readSize_eq_ok_iff.mpr ⟨hsome, hsize, rfl⟩
    have hrest : readOperands image offset size 0 _ (mode.classes.zip widths) = .ok (os, _) :=
      readOperands_eq_ok_iff.mpr ⟨hsound, hholds, rfl⟩
    simp only [readBody, hmode, Mode.ofCode?_code, hcount, ne_eq, not_true_eq_false, if_false,
      hread, bind, Except.bind, hrest, pure, Except.pure]
    rw [Nat.add_assoc (offset + 2)]

/-- What an instruction that was read has to do with its layout, whatever the
image holds. -/
structure Answers (l : Layout) (i : Instruction) : Prop where
  address : i.address = l.offset
  length : i.length = i.bytes.length
  /-- A layout that states a length states this one. -/
  stated : l.length ≠ 0 → (i.length : Int) = l.length
  operands : (l.widths = [] ∧ i.mode = none ∧ i.size = none ∧ i.operands = []) ∨
    (l.widths ≠ [] ∧ ∃ mode, i.mode = some mode ∧ mode.classes.length = l.widths.length ∧
      i.size.isSome = i.opcode.hasSize ∧ SoundFrom i.size 0 (mode.classes.zip l.widths) i.operands)

theorem checkLength_eq_ok_iff {l : Layout} {i i' : Instruction} :
    checkLength l i = .ok i' ↔ i' = i ∧ (l.length ≠ 0 → (i.length : Int) = l.length) := by
  unfold checkLength
  split
  · rename_i h
    simpa using fun _ => h
  · rename_i h
    have hstated : l.length ≠ 0 → (i.length : Int) = l.length := by
      simpa using h
    rw [Except.ok.injEq, eq_comm, and_iff_left hstated]

/-- An instruction is read exactly if it fits its layout and its bytes stand at
the offset. -/
theorem decode_eq_ok_iff {l : Layout} {i : Instruction} :
    decode image l = .ok i ↔ i.Answers l ∧ HoldsAt image l.offset.toNat i.bytes := by
  constructor
  · intro h
    unfold decode at h
    simp only at h
    split at h
    · cases h
    · rename_i b hb
      split at h
      · cases h
      · rename_i op hop
        rw [opcodeOfCode?_eq_some_iff] at hop
        split at h
        · rename_i hwidths
          obtain ⟨rfl, hstated⟩ := checkLength_eq_ok_iff.mp h
          exact ⟨⟨rfl, rfl, hstated, .inl ⟨List.isEmpty_iff.mp hwidths, rfl, rfl, rfl⟩⟩,
            hop ▸ hb, trivial⟩
        · rename_i hwidths
          cases hbody : readBody image l.offset.toNat op l.widths with
          | error e => simp [hbody, bind, Except.bind] at h
          | ok body =>
            obtain ⟨mode, size, operands, stop⟩ := body
            simp only [hbody, bind, Except.bind] at h
            obtain ⟨rfl, hstated⟩ := checkLength_eq_ok_iff.mp h
            obtain ⟨⟨hcount, hsome, hsound⟩, hholds, hstop⟩ := readBody_eq_ok_iff.mp hbody
            refine ⟨⟨rfl, ?_, hstated, .inr ⟨by simpa using hwidths, mode, rfl, hcount, hsome,
              hsound⟩⟩, hop ▸ hb, hholds⟩
            rw [hstop, Nat.add_assoc, Nat.add_sub_cancel_left, Nat.add_comm]
            rfl
  · rintro ⟨⟨haddress, hlength, hstated, hoperands⟩, hholds⟩
    obtain ⟨address, op, mode, size, operands, length⟩ := i
    simp only at haddress hlength hstated hoperands
    subst haddress
    have hop : image[l.offset.toNat]? = some op.code := hholds.1
    simp only [decode, hop, Opcode.ofCode?_code]
    rcases hoperands with ⟨hwidths, rfl, rfl, rfl⟩ | ⟨hwidths, mode, rfl, hcount, hsome, hsound⟩
    · rw [if_pos (List.isEmpty_iff.mpr hwidths)]
      have hone : length = 1 := hlength
      subst hone
      exact checkLength_eq_ok_iff.mpr ⟨rfl, hstated⟩
    · have hbody := readBody_eq_ok_iff.mpr ⟨⟨hcount, hsome, hsound⟩, hholds.2, rfl⟩
      have hstop : l.offset.toNat + 2 + ((size.map Size.code).toList ++
          operands.flatMap DecodedOperand.bytes).length - l.offset.toNat = length := by
        rw [hlength, Nat.add_assoc, Nat.add_sub_cancel_left, Nat.add_comm]
        rfl
      rw [if_neg (by simpa using hwidths), hbody]
      simp only [bind, Except.bind, hstop]
      exact checkLength_eq_ok_iff.mpr ⟨rfl, hstated⟩

theorem bytes_ne_nil (i : Instruction) : i.bytes ≠ [] := List.cons_ne_nil _ _

/-- An instruction has bytes, and they lie in the image. -/
theorem decode_inside {l : Layout} {i : Instruction} (h : decode image l = .ok i) :
    0 < i.length ∧ l.offset.toNat + i.length ≤ image.size := by
  obtain ⟨hanswers, hholds⟩ := decode_eq_ok_iff.mp h
  rw [hanswers.length]
  exact ⟨List.length_pos_iff.mpr i.bytes_ne_nil, hholds.inside i.bytes_ne_nil⟩

/-- Reading an instruction looks at its bytes and at nothing else, and loses
nothing of them. -/
theorem decode_eq_ok_iff_agree {l : Layout} {i : Instruction}
    (h : decode image l = .ok i) (image' : Image) :
    decode image' l = .ok i ↔ l.offset.toNat + i.length ≤ image'.size ∧
      ∀ k, l.offset.toNat ≤ k → k < l.offset.toNat + i.length → image'[k]? = image[k]? := by
  obtain ⟨hanswers, hholds⟩ := decode_eq_ok_iff.mp h
  rw [decode_eq_ok_iff, and_iff_right hanswers, hanswers.length, ← hholds.iff_agree]
  exact ⟨fun h' => ⟨h'.inside i.bytes_ne_nil, h'⟩, And.right⟩

/-- The move of `$1234` to the first register, read at offset 1. -/
def movedNumber : Instruction :=
  ⟨1, .mov, some (.two .register .immediate), some .dword,
    [⟨.register, 0, 1⟩, ⟨.immediate, 0x1234, 2⟩], 6⟩

/-- The move is read between other bytes as well. -/
theorem decode_eq_ok_iff_agree_movedNumber :
    decode #[0xFF, 1, 4, 1, 0, 0x34, 0x12, 7] ⟨1, 6, [1, 2]⟩ = .ok movedNumber ∧
      decode #[0, 1, 4, 1, 0, 0x34, 0x12] ⟨1, 6, [1, 2]⟩ = .ok movedNumber := by
  have h : decode #[0xFF, 1, 4, 1, 0, 0x34, 0x12, 7] ⟨1, 6, [1, 2]⟩ = .ok movedNumber := by
    decide +kernel
  refine ⟨h, (decode_eq_ok_iff_agree h _).mpr ⟨by decide, fun k hlow hhigh => ?_⟩⟩
  have hfrom : 1 ≤ k := hlow
  have hto : k < 7 := hhigh
  interval_cases k <;> rfl

end Instruction

end RegAsm
