/-
RegAsm.Machine.Mode — addressing classes and modes.

An operand belongs to one of four classes.  The mode byte of an instruction
says which classes its operands have: `4 * destination + source` for two
operands, `16 + class` for one.  Every pair of classes has a number, but the
machine accepts only some of them.
-/

namespace RegAsm.Machine

/-- How the machine finds an operand. -/
inductive OperandClass where
  /-- A value, given as such or as the address of a label. -/
  | immediate
  /-- A register. -/
  | register
  /-- Memory at a given address. -/
  | indirect
  /-- Memory at the address that a register holds. -/
  | registerIndirect
  deriving DecidableEq, Repr, Inhabited

namespace OperandClass

/-- The class's number. -/
def code : OperandClass → UInt8
  | .immediate => 0
  | .register => 1
  | .indirect => 2
  | .registerIndirect => 3

/-- The class with a given number, if there is one. -/
def ofCode? : UInt8 → Option OperandClass
  | 0 => some .immediate
  | 1 => some .register
  | 2 => some .indirect
  | 3 => some .registerIndirect
  | _ => none

/-- The name of a class. -/
def name : OperandClass → String
  | .immediate => "immediate"
  | .register => "register"
  | .indirect => "indirect"
  | .registerIndirect => "register-indirect"

/-- The name of a class number, assigned or not. -/
def nameOfCode (b : UInt8) : String :=
  match ofCode? b with
  | some c => c.name
  | none => s!"OperandClass({b.toNat})"

/-- Whether an operand of this class names a register. -/
def usesRegister : OperandClass → Bool
  | .register | .registerIndirect => true
  | _ => false

/-- The name of the class inside a mode's name. -/
def modeName : OperandClass → String
  | .immediate => "Immediate"
  | .register => "Register"
  | .indirect => "Indirect"
  | .registerIndirect => "RIndirect"

end OperandClass

/-- The classes of an instruction's operands. -/
inductive Mode where
  | two (destination source : OperandClass)
  | one (operand : OperandClass)
  deriving DecidableEq, Repr, Inhabited

namespace Mode

/-- The mode byte. -/
def code : Mode → UInt8
  | .two dst src => 4 * dst.code + src.code
  | .one c => 16 + c.code

/-- The mode a byte stands for, if it is assigned. -/
def ofCode? (b : UInt8) : Option Mode :=
  if b < 16 then do
    return .two (← OperandClass.ofCode? (b / 4)) (← OperandClass.ofCode? (b % 4))
  else do
    return .one (← OperandClass.ofCode? (b - 16))

/-- The operand classes, destination first. -/
def classes : Mode → List OperandClass
  | .two dst src => [dst, src]
  | .one c => [c]

/-- The name of a mode. -/
def name : Mode → String
  | .two dst src => dst.modeName ++ src.modeName
  | .one c => c.modeName

/-- The byte reserved for "no mode". -/
def unknownCode : UInt8 := 20

/-- The name of a byte in mode position, assigned or not. -/
def nameOfCode (b : UInt8) : String :=
  match ofCode? b with
  | some m => m.name
  | none => if b = unknownCode then "Unknown" else s!"AddressingMode({b.toNat})"

/-- Whether the machine accepts a destination with a source: values go
anywhere from values and registers, memory is read into registers, and only a
register-indirect destination takes memory. -/
def accepts : OperandClass → OperandClass → Bool
  | .immediate, .immediate | .immediate, .register => true
  | .register, _ => true
  | .indirect, .immediate | .indirect, .register => true
  | .registerIndirect, .immediate | .registerIndirect, .register => true
  | .registerIndirect, .indirect => true
  | _, _ => false

/-- The mode of a destination and a source, if the machine accepts the pair. -/
def ofPair? (dst src : OperandClass) : Option Mode :=
  if accepts dst src then some (.two dst src) else none

@[simp]
theorem ofCode?_code (m : Mode) : ofCode? m.code = some m := by
  rcases m with ⟨dst, src⟩ | c
  · cases dst <;> cases src <;> rfl
  · cases c <;> rfl

end Mode

end RegAsm.Machine
