/-
RegAsm.Listing.Instruction — reading instructions back from an image.

The bytes alone do not tell how wide an immediate is, so an instruction is
read with the help of its layout, and all that the layout says is checked.

1. What can be wrong.
2. Decoding.
3. The instruction as source text.
-/
import RegAsm.Machine.Layout
import RegAsm.Machine.Mode
import RegAsm.Machine.Opcode
import RegAsm.Machine.Register
import RegAsm.Machine.Size
import RegAsm.Symbol.Labels
import RegAsm.Text.Hex

namespace RegAsm

open Machine

/-! ## 1. Failures -/

/-- What is wrong with an operand. -/
inductive OperandFault where
  /-- A register operand is not one byte wide. -/
  | registerWidth (c : OperandClass) (width : Int)
  /-- An address is not four bytes wide. -/
  | addressWidth (c : OperandClass) (width : Int)
  /-- No immediate has this width. -/
  | immediateWidth (width : Int)
  /-- The width of the source is not that of the size byte. -/
  | sizeMismatch (width : Int) (size : Size)
  /-- The value cannot be read. -/
  | unreadable (e : ReadError)
  deriving DecidableEq, Repr

/-- The wording of the fault. -/
def OperandFault.message : OperandFault → String
  | .registerWidth c width => s!"{c.name} operand must be 1 byte, not {width}"
  | .addressWidth c width => s!"{c.name} operand must be 4 bytes, not {width}"
  | .immediateWidth width => s!"immediate width {width}"
  | .sizeMismatch width size => s!"immediate is {width} bytes but size is {size.name}"
  | .unreadable e => e.message

/-- Why no instruction can be read at an offset. -/
inductive DecodeError where
  | outside (offset total : Nat)
  | badOpcode (b : UInt8) (offset : Nat)
  | truncated (offset : Nat)
  | badMode (b : UInt8) (offset : Nat)
  | operandCount (mode : Mode) (offset : Nat) (stated : Nat)
  | badSize (index : Nat)
  | operand (number offset : Nat) (fault : OperandFault)
  | badRegister (value : UInt32) (index : Nat)
  | wrongLength (offset length : Nat) (stated : Int)
  deriving DecidableEq, Repr

/-- The wording of the error. -/
def DecodeError.message : DecodeError → String
  | .outside offset total => s!"instruction at {offset} is outside the {total} byte image"
  | .badOpcode b offset =>
    "invalid opcode $" ++ String.ofList (Text.hexUpper 2 b.toNat) ++ s!" at {offset}"
  | .truncated offset => s!"truncated instruction at {offset}"
  | .badMode b offset => s!"invalid addressing mode {b.toNat} at {offset}"
  | .operandCount mode offset stated =>
    s!"{mode.name} at {offset} has {mode.classes.length} operands, layout has {stated}"
  | .badSize index => s!"missing or invalid size byte at {index}"
  | .operand number offset fault => s!"operand {number} at {offset}: " ++ fault.message
  | .badRegister value index => s!"invalid register {value.toNat} at {index}"
  | .wrongLength offset length stated =>
    s!"instruction at {offset} decodes to {length} bytes, layout says {stated}"

/-! ## 2. Decoding -/

/-- An operand as it was read. -/
structure DecodedOperand where
  operandClass : OperandClass
  value : UInt32
  width : Int
  deriving DecidableEq, Repr, Inhabited

/-- The register that the operand's value names. -/
def DecodedOperand.register (o : DecodedOperand) : Register := ⟨o.value.toUInt8⟩

/-- An instruction as it was read. -/
structure Instruction where
  address : UInt32
  opcode : Opcode
  /-- The mode, if there are operands. -/
  mode : Option Mode
  /-- The size byte, if there is one. -/
  size : Option Size
  operands : List DecodedOperand
  /-- The number of bytes. -/
  length : Nat
  deriving DecidableEq, Repr, Inhabited

namespace Instruction

/-- What is wrong with the width of the operand at a place, if anything. -/
def widthFault? (size : Option Size) (place : Nat) (c : OperandClass) (width : Int) :
    Option OperandFault :=
  match c with
  | .register | .registerIndirect => if width = 1 then none else some (.registerWidth c width)
  | .indirect => if width = 4 then none else some (.addressWidth c width)
  | .immediate =>
    if (Size.ofWidth? width).isNone then some (.immediateWidth width)
    else
      match size with
      | some s => if place = 1 ∧ width ≠ s.bytes then some (.sizeMismatch width s) else none
      | none => none

/-- Reads operands from an index on.  `place` operands are behind. -/
def readOperands (code : Array UInt8) (offset : Nat) (size : Option Size) (place index : Nat) :
    List (OperandClass × Int) → Except DecodeError (List DecodedOperand × Nat)
  | [] => .ok ([], index)
  | (c, width) :: rest =>
    match widthFault? size place c width with
    | some fault => .error (.operand (place + 1) offset fault)
    | none =>
      match readValue code index width with
      | .error e => .error (.operand (place + 1) offset (.unreadable e))
      | .ok v =>
        let o : DecodedOperand := ⟨c, v, width⟩
        if c.usesRegister && !o.register.isAssigned then .error (.badRegister v index)
        else do
          let (os, stop) ← readOperands code offset size (place + 1) (index + width.toNat) rest
          return (o :: os, stop)

/-- The size byte at an index, if the opcode is sized, and the index behind
it. -/
def readSize (code : Array UInt8) (op : Opcode) (index : Nat) :
    Except DecodeError (Option Size × Nat) :=
  if op.hasSize then
    match code[index]?.bind Size.ofCode? with
    | some size => .ok (some size, index + 1)
    | none => .error (.badSize index)
  else .ok (none, index)

/-- Everything behind the opcode of an instruction with operands: mode, size,
operands and the index behind them. -/
def readBody (code : Array UInt8) (offset : Nat) (op : Opcode) (widths : List Int) :
    Except DecodeError (Mode × Option Size × List DecodedOperand × Nat) :=
  match code[offset + 1]? with
  | none => .error (.truncated offset)
  | some b =>
    match Mode.ofCode? b with
    | none => .error (.badMode b offset)
    | some mode =>
      if mode.classes.length ≠ widths.length then
        .error (.operandCount mode offset widths.length)
      else do
        let (size, index) ← readSize code op (offset + 2)
        let (operands, stop) ← readOperands code offset size 0 index (mode.classes.zip widths)
        return (mode, size, operands, stop)

/-- Holds an instruction against the length its layout states; zero states
nothing. -/
def checkLength (l : Layout) (i : Instruction) : Except DecodeError Instruction :=
  if l.length ≠ 0 ∧ i.length ≠ l.length then
    .error (.wrongLength l.offset.toNat i.length l.length)
  else .ok i

/-- Reads the instruction that a layout describes. -/
def decode (code : Array UInt8) (l : Layout) : Except DecodeError Instruction :=
  let offset := l.offset.toNat
  match code[offset]? with
  | none => .error (.outside offset code.size)
  | some b =>
    match Opcode.ofCode? b with
    | none => .error (.badOpcode b offset)
    | some op =>
      if l.widths.isEmpty then checkLength l ⟨l.offset, op, none, none, [], 1⟩
      else do
        let (mode, size, operands, stop) ← readBody code offset op l.widths
        checkLength l ⟨l.offset, op, some mode, size, operands, stop - offset⟩

/-! ## 3. Source text -/

/-- The instruction's name.  A move states its size if the source would be
given another one. -/
def mnemonic (i : Instruction) : String :=
  match i.opcode, i.size, i.operands with
  | .mov, some size, [_, src] =>
    if src.operandClass = .immediate ∧ Size.least src.value ≠ size then
      i.opcode.name ++ size.suffix
    else i.opcode.name
  | _, _, _ => i.opcode.name

/-- A number in base sixteen as a source spells it. -/
def hexNumber (v : UInt32) : String := "$" ++ String.ofList (Text.hexUpper 1 v.toNat)

/-- An address as a source spells it: by a label, if there is one. -/
def addressText (labels : Labels) (v : UInt32) : String :=
  match labels.best? v with
  | some name => name
  | none => hexNumber v

/-- An operand as a source spells it. -/
def operandText (labels : Labels) (o : DecodedOperand) : String :=
  match o.operandClass with
  | .register => o.register.name
  | .registerIndirect => "(" ++ o.register.name ++ ")"
  | .indirect => "(" ++ addressText labels o.value ++ ")"
  | .immediate => if o.width = 4 then addressText labels o.value else s!"{o.value.toNat}"

/-- A word and blanks up to eight places. -/
def padName (name : String) : String :=
  name ++ String.ofList (List.replicate (8 - name.length) ' ')

/-- The instruction as a source spells it. -/
def format (labels : Labels) (i : Instruction) : String :=
  match i.operands with
  | [] => i.mnemonic
  | operands =>
    padName i.mnemonic ++ " " ++ String.intercalate ", " (operands.map (operandText labels))

end Instruction

end RegAsm
