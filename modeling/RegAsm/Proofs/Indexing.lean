/-
RegAsm.Proofs.Indexing — instructions and data by index.

The functions that read an image are written here with indices: each byte,
slice and table entry is fetched by a signed index, and an access out of bounds
is a result of its own.  They give what the functions on the image as a whole
give (`Checked.decode_eq`, `Checked.format_eq`, `Checked.dataText_eq`), so no
access is out of bounds, whatever a layout says.

1. Accesses.
2. Loops.
3. Values.
4. Instructions.
5. Source text.
6. Lines of data from the front.
7. Data.
-/
import RegAsm.Proofs.Overlap

namespace RegAsm

open Machine

/-! ## 1. Accesses -/

/-- Why a computation by index ends without a result. -/
inductive Stop (ε : Type) where
  /-- An access out of bounds. -/
  | outOfBounds
  /-- An error that is reported. -/
  | reported (e : ε)

/-- A computation by index. -/
abbrev Checked (ε α : Type) : Type := Except (Stop ε) α

namespace Checked

variable {ε ε' α β σ : Type}

/-- A computation without accesses: its errors are reported. -/
def of (x : Except ε α) : Checked ε α := x.mapError .reported

/-- Says more about the errors that are reported. -/
def context (f : ε → ε') : Checked ε α → Checked ε' α
  | .ok a => .ok a
  | .error .outOfBounds => .error .outOfBounds
  | .error (.reported e) => .error (.reported (f e))

/-- The item at an index. -/
def item (xs : Array α) (index : Int) : Checked ε α :=
  if 0 ≤ index then
    match xs[index.toNat]? with
    | some x => .ok x
    | none => .error .outOfBounds
  else .error .outOfBounds

/-- The items from one index up to another. -/
def slice (xs : Array α) (low high : Int) : Checked ε (Array α) :=
  if 0 ≤ low ∧ low ≤ high ∧ high ≤ xs.size then .ok (xs.extract low.toNat high.toNat)
  else .error .outOfBounds

@[simp]
theorem of_ok (a : α) : of (.ok a : Except ε α) = .ok a := rfl

@[simp]
theorem of_error (e : ε) : of (.error e : Except ε α) = .error (.reported e) := rfl

/-- What a computation without accesses gives is no access out of bounds. -/
theorem of_ne_outOfBounds (x : Except ε α) : of x ≠ .error .outOfBounds := by
  cases x <;> simp

@[simp]
theorem item_natCast {xs : Array α} {index : Nat} {x : α} (h : xs[index]? = some x) :
    item xs index = (.ok x : Checked ε α) := by
  simp [item, h]

theorem item_of_lt {xs : Array α} {index : Nat} (h : index < xs.size) :
    item xs index = (.ok xs[index] : Checked ε α) :=
  item_natCast (Array.getElem?_eq_getElem h)

theorem slice_natCast {xs : Array α} {low high : Nat} (hlow : low ≤ high) (hhigh : high ≤ xs.size) :
    slice xs low high = (.ok (xs.extract low high) : Checked ε (Array α)) := by
  simp [slice, hlow, hhigh]

/-! ## 2. Loops -/

section Loop

variable (size : Nat) (place : σ → Nat) (pass : σ → Checked ε σ) (finish : σ → β)

/-- A pass of a loop goes on to a later place. -/
def Advances : Prop := ∀ s s', place s < size → pass s = .ok s' → place s < place s'

/-- Makes passes until the place is not below a size any more.  There is an end to
it because each pass advances. -/
def loop (h : Advances size place pass) (s : σ) : Checked ε β :=
  if hplace : place s < size then
    match hpass : pass s with
    | .error e => .error e
    | .ok s' =>
      have := h s s' hplace hpass
      loop h s'
  else .ok (finish s)
termination_by size - place s

/-- The states of a loop. -/
inductive Reached (start : σ) : σ → Prop
  | start : Reached start start
  | pass {s s' : σ} (h : Reached start s) (hplace : place s < size) (hpass : pass s = .ok s') :
    Reached start s'

variable {size place pass finish}

/-- A loop computes what is the same before and after each pass. -/
theorem loop_eq (h : Advances size place pass) {kept : σ → Prop}
    (hkept : ∀ s s', kept s → place s < size → pass s = .ok s' → kept s')
    {result : σ → Checked ε β} (hend : ∀ s, kept s → ¬ place s < size → result s = .ok (finish s))
    (hpass : ∀ s, kept s → place s < size → result s = pass s >>= result) (s : σ) (hs : kept s) :
    loop size place pass finish h s = result s := by
  fun_induction loop size place pass finish h s with
  | case1 s hplace e herror => rw [hpass s hs hplace, herror]; rfl
  | case2 s hplace s' hok _ ih =>
    rw [hpass s hs hplace, hok, ih (hkept s s' hs hplace hok)]
    rfl
  | case3 s hplace => rw [hend s hs hplace]

/-- What a pass keeps is true of all states. -/
theorem Reached.keeps {kept : σ → Prop}
    (hkept : ∀ s s', kept s → place s < size → pass s = .ok s' → kept s') {start s : σ}
    (hstart : kept start) (h : Reached size place pass start s) : kept s := by
  induction h with
  | start => exact hstart
  | pass _ hplace hpass ih => exact hkept _ _ ih hplace hpass

end Loop

/-! ## 3. Values -/

/-- Two bytes as a number, the lower one first. -/
def half (bytes : Array UInt8) : Checked ε UInt32 := do
  let low ← item bytes 0
  let high ← item bytes 1
  return low.toUInt32 ||| (high.toUInt32 <<< 8)

/-- Reads a value of width 1, 2 or 4 from the front of some bytes. -/
def frontValue (bytes : Array UInt8) (width : Int) : Checked ReadError UInt32 :=
  if (bytes.size : Int) < width then .error (.reported (.short width bytes.size))
  else if width = 1 then (item bytes 0).map UInt8.toUInt32
  else if width = 2 then half bytes
  else if width = 4 then do
    let low ← half bytes
    let rest ← slice bytes 2 bytes.size
    let high ← half rest
    return low ||| (high <<< 16)
  else .error (.reported (.width width))

/-- Four bytes are two halves. -/
theorem ofBytes_halves (a b c d : UInt8) :
    ofBytes [a, b, c, d] =
      (a.toUInt32 ||| (b.toUInt32 <<< 8)) ||| ((c.toUInt32 ||| (d.toUInt32 <<< 8)) <<< 16) := by
  have hshift (x : UInt32) : x <<< 16 = x <<< 8 <<< 8 := by
    rw [show (16 : UInt32) = 8 + 8 by decide, UInt32.shiftLeft_add_of_toNat_lt (by decide)]
  simp only [ofBytes, UInt32.zero_shiftLeft, UInt32.or_zero, UInt32.shiftLeft_or, hshift,
    UInt32.or_assoc]

@[simp]
theorem half_toArray (a b : UInt8) (rest : List UInt8) :
    half (a :: b :: rest).toArray =
      (.ok (a.toUInt32 ||| (b.toUInt32 <<< 8)) : Checked ε UInt32) := by
  simp [half, item, bind, Except.bind, pure, Except.pure]

theorem frontValue_eq (image : Image) (index : Nat) (width : Int) :
    frontValue (image.extract index image.size) width = of (readValue image index width) := by
  have hrest : image.extract index image.size = (image.toList.drop index).toArray := by
    simp [← Array.toList_inj]
  have hfront (n : Nat) :
      (image.extract index (index + n)).toList = (image.toList.drop index).take n := by
    simp [List.extract_eq_take_drop]
  have hleft : image.size - index = (image.toList.drop index).length := by simp
  simp only [frontValue, readValue, hrest, List.size_toArray, hfront, hleft]
  generalize image.toList.drop index = bytes
  by_cases hshort : (bytes.length : Int) < width
  · simp [hshort]
  · rw [if_neg hshort, if_neg hshort]
    by_cases hone : width = 1
    · subst hone
      rcases bytes with _ | ⟨a, bytes⟩
      · simp at hshort
      · simp [Size.ofWidth?, Size.bytes, ofBytes, item, Except.map]
    · by_cases htwo : width = 2
      · subst htwo
        rcases bytes with _ | ⟨a, _ | ⟨b, bytes⟩⟩
        · simp at hshort
        · simp at hshort
        · simp [Size.ofWidth?, Size.bytes, ofBytes]
      · by_cases hfour : width = 4
        · subst hfour
          rcases bytes with _ | ⟨a, _ | ⟨b, _ | ⟨c, _ | ⟨d, bytes⟩⟩⟩⟩
          · simp at hshort
          · simp at hshort
          · simp at hshort
          · simp at hshort
          · have hslice : slice (a :: b :: c :: d :: bytes).toArray 2
                (a :: b :: c :: d :: bytes).length =
                (.ok (c :: d :: bytes).toArray : Checked ReadError _) := by
              have h := @slice_natCast ReadError _ (a :: b :: c :: d :: bytes).toArray 2
                (a :: b :: c :: d :: bytes).length (by simp) (by simp)
              simpa using h
            rw [if_neg hone, if_neg htwo, if_pos rfl, hslice]
            simp [Size.ofWidth?, Size.bytes, ofBytes_halves, bind, Except.bind, pure, Except.pure]
        · have hnone : Size.ofWidth? width = none := by
            unfold Size.ofWidth?
            split <;> simp_all
          simp [hone, htwo, hfour, hnone]

/-! ## 4. Instructions -/

/-- Reads operands of given classes from an index on.  `place` operands are
behind. -/
def operands (image : Image) (offset : Nat) (size : Option Size) (widths : Array Int) :
    Nat → Int → List OperandClass → Checked DecodeError (List DecodedOperand × Int)
  | _, index, [] => .ok ([], index)
  | place, index, c :: classes => do
    let width ← item widths place
    match Instruction.widthFault? size place c width with
    | some fault => .error (.reported (.operand (place + 1) offset fault))
    | none =>
      let rest ← slice image index image.size
      let v ← (frontValue rest width).context fun e => .operand (place + 1) offset (.unreadable e)
      let o : DecodedOperand := ⟨c, v, width⟩
      if c.usesRegister && !o.register.isAssigned then
        .error (.reported (.badRegister v index.toNat))
      else
        let (os, stop) ← operands image offset size widths (place + 1) (index + width) classes
        return (o :: os, stop)

/-- The size byte at an index, if the opcode is sized, and the index behind
it. -/
def sizeByte (image : Image) (op : Opcode) (index : Int) :
    Checked DecodeError (Option Size × Int) :=
  if op.hasSize then
    if index < image.size then do
      let b ← item image index
      match Size.ofCode? b with
      | some size => return (some size, index + 1)
      | none => .error (.reported (.badSize index.toNat))
    else .error (.reported (.badSize index.toNat))
  else .ok (none, index)

/-- Everything behind the opcode of an instruction with operands: mode, size,
operands and the index behind them. -/
def body (image : Image) (offset : Nat) (op : Opcode) (widths : List Int) :
    Checked DecodeError ((Mode × Option Size × List DecodedOperand) × Int) :=
  if image.size ≤ offset + 1 then .error (.reported (.truncated offset))
  else do
    let b ← item image ((offset + 1 : Nat) : Int)
    match Mode.ofCode? b with
    | none => .error (.reported (.badMode b offset))
    | some mode =>
      if mode.classes.length ≠ widths.length then
        .error (.reported (.operandCount mode offset widths.length))
      else
        let (size, index) ← sizeByte image op ((offset + 2 : Nat) : Int)
        let (os, stop) ← operands image offset size widths.toArray 0 index mode.classes
        return ((mode, size, os), stop)

/-- Reads the instruction that a layout describes. -/
def decode (image : Image) (l : Layout) : Checked DecodeError Instruction :=
  let offset := l.offset.toNat
  if image.size ≤ offset then .error (.reported (.outside offset image.size))
  else do
    let b ← item image offset
    match Opcode.ofCode? b with
    | none => .error (.reported (.badOpcode b offset))
    | some op =>
      if l.widths.isEmpty then of (Instruction.checkLength l ⟨l.offset, op, none, none, [], 1⟩)
      else
        let ((mode, size, os), stop) ← body image offset op l.widths
        of (Instruction.checkLength l ⟨l.offset, op, some mode, size, os, (stop - offset).toNat⟩)

/-- An index as a signed one. -/
def signed (x : Except ε (α × Nat)) : Checked ε (α × Int) :=
  of (x.map fun result => (result.1, (result.2 : Int)))

theorem operands_eq {image : Image} {offset : Nat} {size : Option Size} {widths : List Int}
    {classes : List OperandClass} {place index : Nat} (hindex : index ≤ image.size)
    (hcount : place + classes.length = widths.length) :
    operands image offset size widths.toArray place index classes =
      signed (Instruction.readOperands image offset size place index
        (classes.zip (widths.drop place))) := by
  induction classes generalizing place index with
  | nil => rfl
  | cons c classes ih =>
    rw [List.length_cons] at hcount
    have hplace : place < widths.length := by omega
    have hitem : item widths.toArray place = (.ok widths[place] : Checked DecodeError Int) :=
      item_natCast (by simp [hplace])
    rw [List.drop_eq_getElem_cons hplace, List.zip_cons_cons, operands, Instruction.readOperands,
      hitem]
    generalize widths[place] = width
    simp only [bind, Except.bind]
    cases Instruction.widthFault? size place c width with
    | some fault => rfl
    | none =>
      have hslice := @slice_natCast DecodeError _ image index image.size hindex (Nat.le_refl _)
      simp only [hslice, frontValue_eq]
      cases hv : readValue image index width with
      | error e => rfl
      | ok v =>
        obtain ⟨s, hs, -, hholds⟩ := readValue_eq_ok_iff.mp hv
        have hinside := hholds.inside (valueBytes_ne_nil v s)
        rw [length_valueBytes] at hinside
        have hwidth := bytes_of_ofWidth? hs
        have hnext : (index : Int) + width = ((index + width.toNat : Nat) : Int) := by omega
        simp only [of_ok, context, Int.toNat_natCast]
        rw [hnext, @ih (place + 1) (index + width.toNat) (by omega) (by omega)]
        split
        · rfl
        · cases Instruction.readOperands image offset size (place + 1) (index + width.toNat)
            (classes.zip (widths.drop (place + 1))) <;> rfl

theorem sizeByte_eq (image : Image) (op : Opcode) (index : Nat) :
    sizeByte image op index = signed (Instruction.readSize image op index) := by
  unfold sizeByte Instruction.readSize
  split
  · by_cases hindex : index < image.size
    · rw [if_pos (Int.ofNat_lt.mpr hindex), item_of_lt hindex, Array.getElem?_eq_getElem hindex]
      simp only [bind, Except.bind, Option.bind_some]
      cases Size.ofCode? image[index] <;> rfl
    · rw [if_neg (by omega), Array.getElem?_eq_none (by omega)]
      rfl
  · rfl

/-- A size byte that was read leaves the index inside the image. -/
theorem readSize_le {image : Image} {op : Opcode} {index stop : Nat} {size : Option Size}
    (hindex : index ≤ image.size) (h : Instruction.readSize image op index = .ok (size, stop)) :
    stop ≤ image.size := by
  obtain ⟨-, hholds, rfl⟩ := Instruction.readSize_eq_ok_iff.mp h
  cases size with
  | none => exact hindex
  | some s => exact hholds.inside (List.cons_ne_nil _ _)

theorem body_eq (image : Image) (offset : Nat) (op : Opcode) (widths : List Int) :
    body image offset op widths =
      signed ((Instruction.readBody image offset op widths).map fun result =>
        ((result.1, result.2.1, result.2.2.1), result.2.2.2)) := by
  unfold body Instruction.readBody
  by_cases hoffset : offset + 1 < image.size
  · rw [if_neg (by omega), item_of_lt hoffset, Array.getElem?_eq_getElem hoffset]
    simp only [bind, Except.bind]
    cases Mode.ofCode? image[offset + 1] with
    | none => rfl
    | some mode =>
      simp only
      split
      · rfl
      · rename_i hcount
        rw [sizeByte_eq]
        cases hsize : Instruction.readSize image op (offset + 2) with
        | error e => rfl
        | ok sized =>
          obtain ⟨size, index⟩ := sized
          have hos := @operands_eq image offset size widths mode.classes 0 index
            (readSize_le hoffset hsize) (by simpa using hcount)
          rw [List.drop_zero] at hos
          simp only [signed, Except.map, of_ok, hos]
          cases Instruction.readOperands image offset size 0 index (mode.classes.zip widths) <;> rfl
  · rw [if_pos (by omega), Array.getElem?_eq_none (by omega)]
    rfl

/-- Whatever a layout says, an instruction is read without an access out of
bounds. -/
theorem decode_eq (image : Image) (l : Layout) :
    decode image l = of (Instruction.decode image l) := by
  unfold decode Instruction.decode
  by_cases hoffset : l.offset.toNat < image.size
  · simp only [if_neg (Nat.not_le.mpr hoffset), item_of_lt hoffset,
      Array.getElem?_eq_getElem hoffset, bind, Except.bind]
    cases Opcode.ofCode? image[l.offset.toNat] with
    | none => rfl
    | some op =>
      simp only
      split
      · rfl
      · rw [body_eq]
        cases Instruction.readBody image l.offset.toNat op l.widths with
        | error e => rfl
        | ok result =>
          have hstop : ((result.2.2.2 : Int) - l.offset.toNat).toNat =
              result.2.2.2 - l.offset.toNat := by omega
          simp only [signed, Except.map, of_ok, hstop]
  · simp only [if_pos (Nat.le_of_not_lt hoffset),
      Array.getElem?_eq_none (Nat.le_of_not_lt hoffset), of_error]

/-! ## 5. Source text -/

/-- The letters that mark the sizes in a suffixed move, indexed by size byte. -/
def suffixes : Array String := #["w", "d", "q"]

/-- The instruction names, indexed by opcode. -/
def opcodeNames : Array String := (Opcode.table.map Prod.snd).toArray

/-- The instruction's name, with the letter of its size if the source would be
given another one. -/
def mnemonic (i : Instruction) : Checked ε String := do
  let name ← item opcodeNames i.opcode.number
  match i.opcode, i.size with
  | .mov, some size =>
    if i.operands.length ≠ 2 then return name
    else
      let src ← item i.operands.toArray 1
      if src.operandClass ≠ .immediate ∨ Size.least src.value = size then return name
      else return name ++ (← item suffixes size.code.toNat)
  | _, _ => return name

/-- The register's name, or its number after an `R`. -/
def registerName (r : Register) : Checked ε String :=
  if r.isAssigned then item Register.names.toArray r.number.toNat
  else return s!"R{r.number.toNat}"

/-- An address as a source spells it: by its first global name, or else by its
first, if it has one. -/
def addressText (labels : Labels) (v : UInt32) : Checked ε String :=
  let names := labels.names v
  match names.find? fun n => n.toList.head? ≠ some '.' with
  | some n => return n
  | none =>
    if 0 < names.length then item names.toArray 0
    else return Instruction.hexNumber v

/-- An operand as a source spells it. -/
def operandText (labels : Labels) (o : DecodedOperand) : Checked ε String :=
  match o.operandClass with
  | .register => registerName o.register
  | .registerIndirect => do return "(" ++ (← registerName o.register) ++ ")"
  | .indirect => do return "(" ++ (← addressText labels o.value) ++ ")"
  | .immediate => if o.width = 4 then addressText labels o.value else return s!"{o.value.toNat}"

/-- The instruction as a source spells it. -/
def format (labels : Labels) (i : Instruction) : Checked ε String := do
  let texts ← i.operands.mapM (operandText labels)
  let name ← mnemonic i
  if texts.isEmpty then return name
  else return Instruction.padName name ++ " " ++ String.intercalate ", " texts

theorem mnemonic_eq (i : Instruction) : mnemonic i = (.ok i.mnemonic : Checked ε String) := by
  have hname : item opcodeNames i.opcode.number = (.ok i.opcode.name : Checked ε String) := by
    cases i.opcode <;> rfl
  have hsuffix (size : Size) : item suffixes size.code.toNat =
      (.ok size.suffix : Checked ε String) := by
    cases size <;> rfl
  rw [mnemonic, hname]
  obtain ⟨address, op, mode, size, os, length⟩ := i
  simp only [bind, Except.bind, Instruction.mnemonic]
  split
  · rename_i size
    rcases os with _ | ⟨dst, _ | ⟨src, _ | ⟨more, os⟩⟩⟩
    · rfl
    · rfl
    · have hitem : item [dst, src].toArray 1 = (.ok src : Checked ε DecodedOperand) := rfl
      simp only [hitem, hsuffix, List.length_cons, List.length_nil, ne_eq, not_true_eq_false,
        if_false]
      by_cases hclass : src.operandClass = .immediate
      · by_cases hleast : Size.least src.value = size <;>
          simp [hclass, hleast, pure, Except.pure]
      · simp [hclass, pure, Except.pure]
    · have hlength : (dst :: src :: more :: os).length ≠ 2 := by simp
      rw [if_pos hlength]
      rfl
  · rename_i hmove
    split
    · exact (hmove _ rfl rfl).elim
    · rfl

theorem registerName_eq (r : Register) :
    registerName r = (.ok r.name : Checked ε String) := by
  unfold registerName Register.name Register.isAssigned
  by_cases hassigned : r.number.toNat < Register.names.length
  · have hitem : item Register.names.toArray r.number.toNat =
        (.ok (Register.names[r.number.toNat]) : Checked ε String) :=
      item_natCast (by simp [hassigned])
    rw [if_pos (by simpa using hassigned), hitem, List.getElem?_eq_getElem hassigned,
      Option.getD_some]
  · rw [if_neg (by simpa using hassigned), List.getElem?_eq_none (by omega), Option.getD_none]
    rfl

theorem addressText_eq (labels : Labels) (v : UInt32) :
    addressText labels v = (.ok (Instruction.addressText labels v) : Checked ε String) := by
  unfold addressText Instruction.addressText Labels.best?
  simp only
  cases (labels.names v).find? fun n => n.toList.head? ≠ some '.' with
  | some n => rfl
  | none => cases labels.names v <;> rfl

theorem operandText_eq (labels : Labels) (o : DecodedOperand) :
    operandText labels o = (.ok (Instruction.operandText labels o) : Checked ε String) := by
  unfold operandText Instruction.operandText
  cases o.operandClass with
  | register => exact registerName_eq _
  | registerIndirect => simp [registerName_eq, bind, Except.bind, pure, Except.pure]
  | indirect => simp [addressText_eq, bind, Except.bind, pure, Except.pure]
  | immediate => by_cases hwidth : o.width = 4 <;> simp [hwidth, addressText_eq, pure, Except.pure]

/-- An instruction is written without an access out of bounds. -/
theorem format_eq (labels : Labels) (i : Instruction) :
    format labels i = (.ok (i.format labels) : Checked ε String) := by
  have hmap (os : List DecodedOperand) : os.mapM (operandText labels) =
      (.ok (os.map (Instruction.operandText labels)) : Checked ε (List String)) := by
    induction os with
    | nil => rfl
    | cons o os ih =>
      simp [List.mapM_cons, operandText_eq, ih, bind, Except.bind, pure, Except.pure]
  rw [format, hmap, mnemonic_eq, Instruction.format]
  simp only [bind, Except.bind]
  cases i.operands <;> simp [pure, Except.pure]

end Checked

namespace Listing

/-! ## 6. Lines of data from the front -/

/-- The first piece is what there is room for, and the others are cut from the
rest. -/
theorem piecesOf_eq_cons {n room : Nat} (hn : 0 < n) {α : Type} {piece xs : List α}
    (h : piece ≠ [] ∨ xs ≠ []) :
    piecesOf n room piece xs =
      (piece.reverse ++ xs.take room) :: piecesOf n n [] (xs.drop room) := by
  induction xs generalizing room piece with
  | nil =>
    have hpiece : piece ≠ [] := h.resolve_right fun hne => hne rfl
    simp [piecesOf, hpiece]
  | cons x rest ih =>
    cases room with
    | zero =>
      obtain ⟨k, rfl⟩ := Nat.exists_eq_add_of_lt hn
      simp [piecesOf]
    | succ room =>
      rw [piecesOf, ih (.inl (List.cons_ne_nil _ _))]
      simp

theorem numberLines_eq_cons {bytes : List UInt8} (h : bytes ≠ []) :
    numberLines bytes =
      dataLine (String.intercalate ", " ((bytes.take 16).map byteText)) ::
        numberLines (bytes.drop 16) := by
  rw [numberLines, piecesOf_eq_cons (by decide) (.inr h)]
  rfl

/-- The first run starts with the first byte. -/
theorem exists_byteRuns_cons (b : UInt8) (rest : List UInt8) :
    ∃ bytes runs, byteRuns (b :: rest) = ⟨isPrintableByte b, b :: bytes⟩ :: runs := by
  have hcons : byteRuns (b :: rest) = addByte b (byteRuns rest) := rfl
  rw [hcons]
  cases byteRuns rest with
  | nil => exact ⟨[], [], rfl⟩
  | cons run runs =>
    rw [addByte]
    split
    · rename_i hsame
      exact ⟨run.bytes, runs, by rw [hsame]⟩
    · exact ⟨[], run :: runs, rfl⟩

/-- Bytes of one kind in front of a byte of the other kind are the first run. -/
theorem byteRuns_append {printable : Bool} {run rest : List UInt8} (hne : run ≠ [])
    (hrun : ∀ b ∈ run, isPrintableByte b = printable)
    (hrest : ∀ b ∈ rest.head?, isPrintableByte b ≠ printable) :
    byteRuns (run ++ rest) = ⟨printable, run⟩ :: byteRuns rest := by
  induction run with
  | nil => exact absurd rfl hne
  | cons b run ih =>
    obtain ⟨hb, htail⟩ := List.forall_mem_cons.mp hrun
    have hcons : byteRuns (b :: run ++ rest) =
        addByte b (byteRuns (run ++ rest)) := rfl
    rw [hcons]
    by_cases hnil : run = []
    · subst hnil
      rw [List.nil_append]
      cases rest with
      | nil => simp [byteRuns, addByte, hb]
      | cons c rest =>
        obtain ⟨bytes, runs, hruns⟩ := exists_byteRuns_cons c rest
        have hc : isPrintableByte c ≠ printable := hrest c rfl
        rw [hruns, addByte, if_neg (by rwa [hb]), hb]
    · rw [ih hnil htail, addByte, if_pos hb.symm]

theorem startsWithZero_byteRuns (bytes : List UInt8) :
    startsWithZero (byteRuns bytes) = (bytes.head? == some 0) := by
  cases bytes with
  | nil => rfl
  | cons b rest =>
    obtain ⟨bytes, runs, hruns⟩ := exists_byteRuns_cons b rest
    rw [hruns]
    by_cases hb : b = 0
    · subst hb
      rfl
    · simp [startsWithZero, hb]

/-- A zero byte that is already written is left out. -/
theorem runLines_skip_zero (rest : List UInt8) :
    runLines true (byteRuns (0 :: rest)) = dataLines rest := by
  have hcons : byteRuns (0 :: rest) = addByte 0 (byteRuns rest) := rfl
  have hzero : isPrintableByte 0 = false := by decide
  have hnone : numberLines [] = [] := rfl
  rw [hcons, dataLines]
  cases byteRuns rest with
  | nil => simp [addByte, runLines, hzero, hnone]
  | cons run runs =>
    rw [addByte, hzero]
    split
    · rename_i hsame
      simp [runLines, hsame]
    · simp [runLines, hnone]

/-- Bytes that are not printable are numbers. -/
theorem dataLines_others {others rest : List UInt8}
    (hothers : ∀ b ∈ others, isPrintableByte b = false)
    (hrest : ∀ b ∈ rest.head?, isPrintableByte b = true) :
    dataLines (others ++ rest) = numberLines others ++ dataLines rest := by
  by_cases hne : others = []
  · subst hne
    rfl
  · have hkind : ∀ b ∈ rest.head?, isPrintableByte b ≠ false := fun b hb => by
      rw [hrest b hb]; decide
    rw [dataLines, byteRuns_append hne hothers hkind]
    rfl

/-- Printable bytes are numbers or a string. -/
theorem dataLines_run {run rest : List UInt8} (hne : run ≠ [])
    (hrun : ∀ b ∈ run, isPrintableByte b = true)
    (hrest : ∀ b ∈ rest.head?, isPrintableByte b = false) :
    dataLines (run ++ rest) =
      if run.length < 4 then numberLines run ++ dataLines rest
      else if rest.head? == some 0 then
        dataLine (Token.quote (String.ofList (run.map fun b => Char.ofNat b.toNat)) ++
          ", $00") :: dataLines rest.tail
      else dataLine (Token.quote (String.ofList (run.map fun b => Char.ofNat b.toNat))) ::
        dataLines rest := by
  have hkind : ∀ b ∈ rest.head?, isPrintableByte b ≠ true := fun b hb => by
    rw [hrest b hb]; decide
  rw [dataLines, byteRuns_append hne hrun hkind, runLines,
    startsWithZero_byteRuns]
  by_cases hshort : run.length < 4
  · rw [if_pos hshort, if_neg (by simpa using hshort)]
    rfl
  · rw [if_neg hshort, if_pos (by simpa using hshort)]
    by_cases hzero : (rest.head? == some 0) = true
    · rw [if_pos hzero, if_pos hzero]
      cases rest with
      | nil => cases hzero
      | cons b rest =>
        obtain rfl : b = 0 := by simpa using hzero
        rw [runLines_skip_zero]
        rfl
    · rw [if_neg hzero, if_neg hzero]
      rfl

end Listing

namespace Checked

variable {ε : Type}

/-! ## 7. Data -/

/-- The first index from one on where a byte fails a test or the data end. -/
def scan (test : UInt8 → Bool) (data : Array UInt8) (index : Nat) : Checked ε Nat :=
  if index < data.size then do
    if test (← item data index) then scan test data (index + 1) else return index
  else return index
termination_by data.size - index

/-- The bytes from an index on as numbers, sixteen on a line. -/
def numbersFrom (data : Array UInt8) (index : Nat) : Checked ε (List String) :=
  if index < data.size then do
    let piece ← slice data index (min (index + 16) data.size : Nat)
    let rest ← numbersFrom data (index + 16)
    return Listing.dataLine (String.intercalate ", " (piece.toList.map Listing.byteText)) :: rest
  else return []
termination_by data.size - index

/-- The bytes between two indices as numbers. -/
def numbersBetween (data : Array UInt8) (low high : Nat) : Checked ε (List String) :=
  if low < high then do numbersFrom (← slice data low high) 0 else return []

/-- Whether the data go on with a zero byte. -/
def zeroAt (data : Array UInt8) (index : Nat) : Checked ε Bool :=
  if index < data.size then do return (← item data index) == 0 else return false

/-- Data up to an index and their lines. -/
structure Written where
  index : Nat
  lines : List String

/-- Writes bytes that are not printable and the printable ones behind them. -/
def dataPass (data : Array UInt8) (w : Written) : Checked ε Written := do
  let start ← scan (fun b => !Listing.isPrintableByte b) data w.index
  let others ← numbersBetween data w.index start
  let lines := w.lines ++ others
  let stop ← scan Listing.isPrintableByte data start
  if stop = start then return ⟨start, lines⟩
  else
    let run ← slice data start stop
    if run.size < 4 then return ⟨stop, lines ++ (← numbersFrom run 0)⟩
    else
      let text := Token.quote (String.ofList (run.toList.map fun b => Char.ofNat b.toNat))
      if ← zeroAt data stop then return ⟨stop + 1, lines ++ [Listing.dataLine (text ++ ", $00")]⟩
      else return ⟨stop, lines ++ [Listing.dataLine text]⟩

theorem scan_eq (test : UInt8 → Bool) (data : Array UInt8) (index : Nat) :
    scan test data index =
      (.ok (index + ((data.toList.drop index).takeWhile test).length) : Checked ε Nat) := by
  by_cases hindex : index < data.size
  · have hdrop : data.toList.drop index = data[index] :: data.toList.drop (index + 1) :=
      List.drop_eq_getElem_cons (by simpa using hindex)
    rw [scan, if_pos hindex, item_of_lt hindex, hdrop]
    simp only [bind, Except.bind]
    by_cases htest : test data[index] = true
    · rw [if_pos htest, scan_eq test data (index + 1), List.takeWhile_cons_of_pos htest,
        List.length_cons, Nat.add_assoc, Nat.add_comm 1]
    · rw [if_neg htest, List.takeWhile_cons_of_neg htest]
      rfl
  · rw [scan, if_neg hindex, List.drop_eq_nil_of_le (by simpa using hindex)]
    rfl
termination_by data.size - index

theorem numbersFrom_eq (data : Array UInt8) (index : Nat) :
    numbersFrom data index =
      (.ok (Listing.numberLines (data.toList.drop index)) : Checked ε (List String)) := by
  by_cases hindex : index < data.size
  · have hslice := @slice_natCast ε _ data index (min (index + 16) data.size) (by omega) (by omega)
    have hpiece : (data.extract index (min (index + 16) data.size)).toList =
        (data.toList.drop index).take 16 := by
      rw [Array.toList_extract, List.extract_eq_take_drop, List.take_eq_take_iff, List.length_drop,
        Array.length_toList]
      omega
    have hne : data.toList.drop index ≠ [] := by simpa using hindex
    rw [numbersFrom, if_pos hindex, hslice, numbersFrom_eq data (index + 16),
      Listing.numberLines_eq_cons hne, List.drop_drop]
    simp only [bind, Except.bind, hpiece]
    rfl
  · rw [numbersFrom, if_neg hindex, List.drop_eq_nil_of_le (by simpa using hindex)]
    rfl
termination_by data.size - index

theorem numbersBetween_eq {data : Array UInt8} {low high : Nat} (hlow : low ≤ high)
    (hhigh : high ≤ data.size) :
    numbersBetween data low high =
      (.ok (Listing.numberLines (data.extract low high).toList) : Checked ε (List String)) := by
  unfold numbersBetween
  split
  · simp only [slice_natCast hlow hhigh, bind, Except.bind, numbersFrom_eq, List.drop_zero]
  · have hempty : (data.extract low high).toList = [] := by
      simp
      omega
    rw [hempty]
    rfl

theorem zeroAt_eq (data : Array UInt8) (index : Nat) :
    zeroAt data index = (.ok ((data.toList.drop index).head? == some 0) : Checked ε Bool) := by
  unfold zeroAt
  split
  · rename_i hindex
    rw [item_of_lt hindex, List.head?_drop, Array.getElem?_toList, Array.getElem?_eq_getElem hindex]
    rfl
  · rename_i hindex
    rw [List.drop_eq_nil_of_le (by simpa using hindex)]
    rfl

/-- The bytes from one index up to another are the longest ones from there on that
pass a test. -/
structure Spans (test : UInt8 → Bool) (data : Array UInt8) (index stop : Nat) : Prop where
  le : index ≤ stop
  inside : stop ≤ data.size
  passed : ∀ b ∈ (data.extract index stop).toList, test b = true
  failed : ∀ b ∈ (data.toList.drop stop).head?, test b = false
  split : data.toList.drop index = (data.extract index stop).toList ++ data.toList.drop stop

theorem scan_spec (test : UInt8 → Bool) {data : Array UInt8} {index : Nat}
    (h : index ≤ data.size) :
    ∃ stop, scan test data index = (.ok stop : Checked ε Nat) ∧ Spans test data index stop := by
  have hsize : data.toList.length = data.size := Array.length_toList
  have hlength := (List.takeWhile_prefix test : _ <+: data.toList.drop index).length_le
  have hfront :
      (data.extract index (index + ((data.toList.drop index).takeWhile test).length)).toList =
      (data.toList.drop index).takeWhile test := by
    rw [Array.toList_extract, List.extract_eq_take_drop, Nat.add_sub_cancel_left]
    exact (List.prefix_iff_eq_take.mp (List.takeWhile_prefix test)).symm
  have hbehind : data.toList.drop (index + ((data.toList.drop index).takeWhile test).length) =
      (data.toList.drop index).dropWhile test := by
    rw [← List.drop_drop]
    generalize data.toList.drop index = bytes
    calc bytes.drop (bytes.takeWhile test).length
        = (bytes.takeWhile test ++ bytes.dropWhile test).drop (bytes.takeWhile test).length := by
          rw [List.takeWhile_append_dropWhile]
      _ = bytes.dropWhile test := List.drop_left
  refine ⟨_, scan_eq test data index, Nat.le_add_right _ _, ?_, ?_, ?_, ?_⟩
  · rw [List.length_drop, hsize] at hlength
    omega
  · intro b hb
    rw [hfront] at hb
    exact List.mem_takeWhile_imp hb
  · intro b hb
    rw [hbehind] at hb
    have hhead := List.head?_dropWhile_not test (data.toList.drop index)
    rw [hb] at hhead
    simpa using hhead
  · rw [hfront, hbehind, List.takeWhile_append_dropWhile]

/-- A pass over data goes on behind the bytes whose lines it writes. -/
theorem dataPass_spec {data : Array UInt8} {w : Written} (h : w.index < data.size) :
    ∃ w', dataPass data w = (.ok w' : Checked ε Written) ∧ w.index < w'.index ∧
      w'.lines ++ Listing.dataLines (data.toList.drop w'.index) =
        w.lines ++ Listing.dataLines (data.toList.drop w.index) := by
  obtain ⟨start, hscan, hothers⟩ :=
    @scan_spec ε (fun b => !Listing.isPrintableByte b) data w.index (Nat.le_of_lt h)
  obtain ⟨stop, hscan', hrun⟩ := @scan_spec ε Listing.isPrintableByte data start hothers.inside
  have hle := hothers.le
  have hlines : Listing.dataLines (data.toList.drop w.index) =
      Listing.numberLines (data.extract w.index start).toList ++
        Listing.dataLines (data.toList.drop start) := by
    rw [hothers.split]
    exact Listing.dataLines_others (fun b hb => by simpa using hothers.passed b hb)
      fun b hb => by simpa using hothers.failed b hb
  simp only [dataPass, hscan, hscan', numbersBetween_eq hothers.le hothers.inside, bind,
    Except.bind]
  by_cases hsame : stop = start
  · -- No byte is left: it would be printable and not printable.
    have hnone : (data.toList.drop start).head? = none := by
      cases hhead : (data.toList.drop start).head? with
      | none => rfl
      | some b =>
        have hpassed := hothers.failed b hhead
        have hfailed := hrun.failed b (hsame ▸ hhead)
        simp [hfailed] at hpassed
    have hend : data.size ≤ start := by
      simpa using hnone
    refine ⟨_, if_pos hsame, Nat.lt_of_lt_of_le h hend, ?_⟩
    rw [hlines, List.append_assoc]
  · have hlt : start < stop := Nat.lt_of_le_of_ne hrun.le (Ne.symm hsame)
    have hinside := hrun.inside
    have hsize : (data.extract start stop).size = stop - start := by
      rw [Array.size_extract]
      omega
    have hne : (data.extract start stop).toList ≠ [] := by
      rw [ne_eq, ← List.length_eq_zero_iff, Array.length_toList]
      omega
    rw [hlines, hrun.split, Listing.dataLines_run hne hrun.passed hrun.failed, if_neg hsame,
      slice_natCast hrun.le hrun.inside]
    simp only [Array.length_toList, numbersFrom_eq, List.drop_zero, zeroAt_eq]
    by_cases hshort : (data.extract start stop).size < 4
    · simp only [if_pos hshort]
      refine ⟨_, rfl, Nat.lt_of_le_of_lt hle hlt, ?_⟩
      simp
    · simp only [if_neg hshort]
      by_cases hzero : ((data.toList.drop stop).head? == some 0) = true
      · simp only [hzero, if_true]
        refine ⟨_, rfl, by simp only; omega, ?_⟩
        simp
      · simp only [hzero]
        refine ⟨_, rfl, Nat.lt_of_le_of_lt hle hlt, ?_⟩
        simp

theorem dataPass_advances (data : Array UInt8) :
    Advances data.size Written.index (dataPass data : Written → Checked ε Written) := by
  intro w w' hindex hpass
  obtain ⟨w'', hok, hlt, -⟩ := @dataPass_spec ε data w hindex
  rw [hok, Except.ok.injEq] at hpass
  exact hpass ▸ hlt

/-- Bytes as data directives. -/
def dataText (data : Array UInt8) : Checked ε (List String) :=
  loop data.size Written.index (dataPass data) Written.lines (dataPass_advances data) ⟨0, []⟩

/-- Data are written without an access out of bounds. -/
theorem dataText_eq (data : Array UInt8) :
    dataText data = (.ok (Listing.dataLines data.toList) : Checked ε (List String)) := by
  have hloop := @loop_eq ε (List String) Written data.size Written.index (dataPass data)
    Written.lines (dataPass_advances data) (fun _ => True) (fun _ _ _ _ _ => trivial)
    (fun w => .ok (w.lines ++ Listing.dataLines (data.toList.drop w.index)))
    (fun w _ hend => ?_) (fun w _ hindex => ?_) ⟨0, []⟩ trivial
  · rw [dataText, hloop]
    rfl
  · rw [List.drop_eq_nil_of_le (by simpa using hend)]
    simp [Listing.dataLines_nil]
  · obtain ⟨w', hok, -, hlines⟩ := @dataPass_spec ε data w hindex
    rw [hok, ← hlines]
    rfl

end Checked

end RegAsm
