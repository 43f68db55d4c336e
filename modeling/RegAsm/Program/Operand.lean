/-
RegAsm.Program.Operand — the arguments of instructions and directives.
-/
import RegAsm.Machine.Mode
import RegAsm.Machine.Register
import RegAsm.Source.Position
import RegAsm.Token.Literal

namespace RegAsm

open Machine
open Source (Position)

/-- How an argument is written. -/
inductive OperandForm where
  /-- A number. -/
  | immediate (value : UInt32)
  /-- A register. -/
  | register (r : Register)
  /-- A label, used as a value.  Local names keep their leading dot. -/
  | name (label : String)
  /-- A register in parentheses. -/
  | indirectRegister (r : Register)
  /-- A label in parentheses. -/
  | indirectName (label : String)
  /-- A number in parentheses. -/
  | indirectImmediate (value : UInt32)
  /-- A string. -/
  | text (contents : String)
  /-- A number that stands for no form. -/
  | other (tag : Int)
  deriving DecidableEq, Repr, Inhabited

namespace OperandForm

/-- The name of a form. -/
def title : OperandForm → String
  | .immediate _ => "immediate"
  | .register _ => "register"
  | .name _ => "identifier"
  | .indirectRegister _ => "indirect register"
  | .indirectName _ => "indirect identifier"
  | .indirectImmediate _ => "indirect immediate"
  | .text _ => "string"
  | .other tag => s!"OperandType({tag})"

/-- The addressing class of a form; strings have none. -/
def class? : OperandForm → Option OperandClass
  | .immediate _ | .name _ => some .immediate
  | .register _ => some .register
  | .indirectName _ | .indirectImmediate _ => some .indirect
  | .indirectRegister _ => some .registerIndirect
  | .text _ | .other _ => none

/-- The argument as a source spells it. -/
def render : OperandForm → String
  | .immediate v => s!"{v.toNat}"
  | .register r => r.name
  | .name label => label
  | .indirectRegister r => "(" ++ r.name ++ ")"
  | .indirectName label => "(" ++ label ++ ")"
  | .indirectImmediate v => s!"({v.toNat})"
  | .text contents => Token.quote contents
  | .other _ => "?"

end OperandForm

/-- An argument and where it is written. -/
structure Operand where
  form : OperandForm
  pos : Position
  deriving DecidableEq, Repr, Inhabited

/-- Arguments as a source lists them. -/
def renderOperands (operands : List Operand) : String :=
  String.intercalate ", " (operands.map (·.form.render))

end RegAsm
