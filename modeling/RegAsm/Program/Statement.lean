/-
RegAsm.Program.Statement — the statements of a program, and how they are shown.

1. The statements themselves.
2. The spelling of a statement, close to what was written.
3. The outline: one line for each statement, with its kind and arguments.
-/
import RegAsm.Machine.Mnemonic
import RegAsm.Program.Operand
import RegAsm.Text.Blank

namespace RegAsm

open Machine
open Source (Position)

/-! ## 1. Statements -/

/-- One statement of a program. -/
inductive Statement where
  /-- A global label, which ends the region of the local labels before it. -/
  | label (name : String) (pos : Position)
  /-- A local label.  The name keeps its leading dot. -/
  | localLabel (name : String) (pos : Position)
  /-- An instruction, destination first. -/
  | instruction (mnemonic : Mnemonic) (operands : List Operand) (pos : Position)
  /-- Bytes. -/
  | data (items : List Operand) (pos : Position)
  /-- A statement that is repeated. -/
  | times (count : UInt32) (body : Statement) (pos : Position)
  /-- A repetition of nothing. -/
  | bareTimes (count : UInt32) (pos : Position)
  /-- A number that stands for no kind of statement. -/
  | other (tag : Int) (mnemonic : Mnemonic) (operands : List Operand) (pos : Position)
  deriving DecidableEq, Repr, Inhabited

namespace Statement

/-- Where the statement starts. -/
def pos : Statement → Position
  | .label _ p | .localLabel _ p | .instruction _ _ p | .data _ p | .times _ _ p
  | .bareTimes _ p | .other _ _ _ p => p

/-! ## 2. Spelling -/

/-- A keyword in lower case. -/
def spellMnemonic (m : Mnemonic) : String := String.ofList (m.name.toList.map Char.toLower)

/-- A keyword and its arguments. -/
def spellInstruction (m : Mnemonic) (operands : List Operand) : String :=
  match operands with
  | [] => spellMnemonic m
  | operands => spellMnemonic m ++ " " ++ renderOperands operands

/-- The statement roughly as it was written. -/
def render : Statement → String
  | .label name _ | .localLabel name _ => name ++ ":"
  | .instruction m operands _ | .other _ m operands _ => spellInstruction m operands
  | .data items _ => "db " ++ renderOperands items
  | .times count body _ => s!"times {count.toNat} " ++ body.render
  | .bareTimes count _ => s!"times {count.toNat}"

/-! ## 3. Outline -/

/-- A word with its first letter in upper case. -/
def capitalize : List Char → List Char
  | [] => []
  | c :: rest => c.toUpper :: rest

/-- The kind of an instruction: all moves are one kind. -/
def instructionKind (m : Mnemonic) : String :=
  if m.isMove then "Mov"
  else if m = .op .hlt then "Halt"
  else String.ofList (capitalize (spellMnemonic m).toList)

/-- The kind of a statement. -/
def kind : Statement → String
  | .label _ _ => "Label"
  | .localLabel _ _ => "LocalLabel"
  | .instruction m _ _ | .other _ m _ _ => instructionKind m
  | .data _ _ => "Db"
  | .times _ _ _ | .bareTimes _ _ => "Times"

/-- What a statement is about: its name, its arguments, or what it repeats. -/
def describe : Statement → String
  | .label name _ | .localLabel name _ => name
  | .instruction _ operands _ | .data operands _ | .other _ _ operands _ => renderOperands operands
  | .times count body _ => Text.trim (s!"{count.toNat}: " ++ body.kind ++ " " ++ body.describe)
  | .bareTimes count _ => s!"{count.toNat}"

end Statement

/-- One line of an outline. -/
structure OutlineEntry where
  kind : String
  operands : String
  deriving DecidableEq, Repr

/-- The line's text. -/
def OutlineEntry.render (e : OutlineEntry) : String :=
  if e.operands = "" then e.kind else e.kind ++ ": " ++ e.operands

/-- The outline of a program, one entry for each statement. -/
def outline (program : List Statement) : List OutlineEntry :=
  program.map fun s => ⟨s.kind, s.describe⟩

end RegAsm
