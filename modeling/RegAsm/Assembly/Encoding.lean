/-
RegAsm.Assembly.Encoding — the machine form of statements.

An instruction is encoded as its opcode byte and, if it has operands, a mode
byte, a size byte for the sized opcodes, and one field for each operand.  The
fields are fixed before any label is resolved: a label takes four bytes
wherever it lies.

1. Why a statement has no machine form.
2. Instructions.
3. Data.
-/
import RegAsm.Machine.Layout
import RegAsm.Program.Statement
import RegAsm.Text.Quoted

namespace RegAsm

open Machine
open Source (Position)

/-! ## 1. Failures -/

/-- Why a statement has no machine form. -/
inductive EncodingFault where
  /-- The keyword is a directive or no keyword at all. -/
  | notAnInstruction (m : Mnemonic)
  /-- An instruction has an argument that only data can have. -/
  | onlyInData (form : OperandForm)
  /-- The machine does not accept the two operands together. -/
  | noMode (destination source : OperandForm)
  /-- No instruction has so many operands. -/
  | operandCount (n : Nat)
  /-- A sized instruction has one operand. -/
  | needsTwoOperands (m : Mnemonic)
  /-- A value is too large for the stated size. -/
  | doesNotFit (value : UInt32) (size : Size)
  /-- A register number names no register. -/
  | badRegister (r : Register)
  /-- A data directive has no value. -/
  | noData
  /-- A data string has a character that is not ASCII, at a byte offset. -/
  | notAscii (text : String) (c : Char) (index : Nat)
  /-- A data directive has an argument that is no datum. -/
  | notADatum (form : OperandForm)
  /-- A repetition has nothing to repeat. -/
  | nothingToRepeat
  /-- The statement is of no kind. -/
  | unknownStatement (tag : Int)
  deriving DecidableEq, Repr

/-- The wording of the reason. -/
def EncodingFault.reason : EncodingFault → String
  | .notAnInstruction m => m.name ++ " is not an instruction"
  | .onlyInData form => form.title ++ " operand is only valid in db"
  | .noMode dst src =>
    "no addressing mode for " ++ dst.title ++ " destination with " ++ src.title ++ " source"
  | .operandCount n => s!"unsupported operand count {n}"
  | .needsTwoOperands m => m.name ++ " takes two operands"
  | .doesNotFit v size => s!"immediate {v.toNat} does not fit a {size.name}"
  | .badRegister r => s!"invalid register {r.number.toNat}"
  | .noData => "db requires at least one value"
  | .notAscii text c index =>
    "db string " ++ Text.quoted text ++ " has non-ASCII character " ++ Text.quotedSingle c ++
      s!" at {index}"
  | .notADatum form => "db does not accept " ++ form.title ++ " operands"
  | .nothingToRepeat => "times requires a statement"
  | .unknownStatement tag => s!"unknown node type {tag}"

/-! ## 2. Instructions -/

/-- What an operand takes in an instruction. -/
inductive Field where
  /-- A register number. -/
  | byte (b : UInt8)
  /-- A value of a size. -/
  | value (v : UInt32) (size : Size)
  /-- The address of a label, which is mentioned at a place. -/
  | address (label : String) (pos : Position)
  deriving DecidableEq, Repr

/-- The width of a field, in bytes. -/
def Field.width : Field → Nat
  | .byte _ => 1
  | .value _ size => size.bytes
  | .address _ _ => 4

/-- The machine form of an instruction, labels aside. -/
structure Encoding where
  opcode : Opcode
  /-- The mode, if there are operands. -/
  mode : Option Mode
  /-- The size, if the opcode is sized and there are operands. -/
  size : Option Size
  fields : List Field
  deriving DecidableEq, Repr

namespace Encoding

/-- The bytes in front of the fields. -/
def head (e : Encoding) : List UInt8 :=
  e.opcode.code :: ((e.mode.map Mode.code).toList ++ (e.size.map Size.code).toList)

/-- The widths of the fields. -/
def widths (e : Encoding) : List Nat := e.fields.map Field.width

/-- The number of bytes. -/
def length (e : Encoding) : Nat := e.head.length + e.widths.foldr (· + ·) 0

/-- The classes of the operands, if each has one. -/
def classes : List Operand → Except EncodingFault (List OperandClass)
  | [] => .ok []
  | o :: rest =>
    match o.form.class? with
    | none => .error (.onlyInData o.form)
    | some c => (classes rest).map (c :: ·)

/-- The mode of some operands. -/
def modeOf (operands : List Operand) : Except EncodingFault Mode := do
  let cs ← classes operands
  match operands, cs with
  | _, [c] => .ok (.one c)
  | [dst, src], [d, s] =>
    match Mode.ofPair? d s with
    | some mode => .ok mode
    | none => .error (.noMode dst.form src.form)
  | _, cs => .error (.operandCount cs.length)

/-- The size of a sized instruction: that of an immediate source, stated or as
small as its value allows, and the widest for every other source. -/
def sizeOf (m : Mnemonic) (source : OperandForm) : Except EncodingFault Size :=
  match source with
  | .immediate v =>
    match m.size? with
    | some size => if size.fits v then .ok size else .error (.doesNotFit v size)
    | none => .ok (.least v)
  | _ => .ok .qword

/-- The size byte of an instruction, if its opcode is sized. -/
def sizeFor (op : Opcode) (m : Mnemonic) (operands : List Operand) :
    Except EncodingFault (Option Size) :=
  if op.hasSize then
    match operands with
    | [_, src] => (sizeOf m src.form).map some
    | _ => .error (.needsTwoOperands m)
  else .ok none

/-- The register that a form names. -/
def registerOf? : OperandForm → Option Register
  | .register r | .indirectRegister r => some r
  | _ => none

/-- The first operand that names no register by its number. -/
def badRegister? (operands : List Operand) : Option Register :=
  operands.findSome? fun o => (registerOf? o.form).filter (!·.isAssigned)

/-- The field of an operand.  An immediate takes the given size, or as little
as its value allows. -/
def fieldOf (size : Option Size) (o : Operand) : Field :=
  match o.form with
  | .register r | .indirectRegister r => .byte r.number
  | .immediate v => .value v (size.getD (.least v))
  | .indirectImmediate v => .value v .qword
  | .name label | .indirectName label => .address label o.pos
  | .text _ | .other _ => .address "" o.pos

/-- The fields of some operands, destination first.  The size is that of the
source. -/
def fieldsOf (size : Option Size) : List Operand → List Field
  | [] => []
  | dst :: sources => fieldOf none dst :: sources.map (fieldOf size)

/-- The machine form of an instruction. -/
def of (m : Mnemonic) (operands : List Operand) : Except EncodingFault Encoding := do
  let some op := m.opcode? | .error (.notAnInstruction m)
  if operands.isEmpty then return ⟨op, none, none, []⟩
  let mode ← modeOf operands
  let size ← sizeFor op m operands
  if let some r := badRegister? operands then .error (.badRegister r)
  return ⟨op, some mode, size, fieldsOf size operands⟩

end Encoding

/-! ## 3. Data -/

/-- The bytes of an ASCII text.  `index` characters are behind. -/
def asciiBytes (whole : String) (index : Nat) : List Char → Except EncodingFault (List UInt8)
  | [] => .ok []
  | c :: rest =>
    if c.toNat < 0x80 then (asciiBytes whole (index + 1) rest).map (UInt8.ofNat c.toNat :: ·)
    else .error (.notAscii whole c index)

/-- The bytes of one datum: a string's characters, or a number's low byte. -/
def datumBytes (o : Operand) : Except EncodingFault (List UInt8) :=
  match o.form with
  | .text s => asciiBytes s 0 s.toList
  | .immediate v => .ok [v.toUInt8]
  | form => .error (.notADatum form)

/-- The bytes of a data directive. -/
def dataBytes (items : List Operand) : Except EncodingFault (List UInt8) :=
  if items.isEmpty then .error .noData
  else (items.mapM datumBytes).map List.flatten

end RegAsm
