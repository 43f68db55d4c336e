/-
RegAsm.Machine.Mnemonic — the keywords of the assembly language.

Every opcode has a keyword.  Five more follow: the moves with a stated size,
and the two directives `DB` and `TIMES`.  A keyword is known by its index in
the table; an index outside the table names no keyword.
-/
import RegAsm.Machine.Opcode
import RegAsm.Machine.Size

namespace RegAsm.Machine

/-- A keyword of the language. -/
inductive Mnemonic where
  /-- The keyword of an opcode. -/
  | op (opcode : Opcode)
  /-- A move whose source has a stated size. -/
  | sizedMove (size : Size)
  /-- The directive that places bytes. -/
  | db
  /-- The directive that repeats a statement. -/
  | times
  /-- An index outside the keyword table. -/
  | other (index : Int)
  deriving DecidableEq, Repr, Inhabited

namespace Mnemonic

/-- The opcodes' keywords, in encoding order. -/
def opcodeNames : List String :=
  Opcode.table.map fun entry => String.ofList (entry.2.toList.map Char.toUpper)

/-- The keyword table, indexed as tokens number their keywords. -/
def names : List String := opcodeNames ++ ["MOVW", "MOVD", "MOVQ", "DB", "TIMES"]

/-- The keyword's index in the table. -/
def index : Mnemonic → Int
  | .op opcode => opcode.number
  | .sizedMove .word => 61
  | .sizedMove .dword => 62
  | .sizedMove .qword => 63
  | .db => 64
  | .times => 65
  | .other n => n

/-- The keyword at an index of the table. -/
def ofIndex (n : Int) : Mnemonic :=
  match n with
  | 61 => .sizedMove .word
  | 62 => .sizedMove .dword
  | 63 => .sizedMove .qword
  | 64 => .db
  | 65 => .times
  | .ofNat k =>
    match Opcode.table[k]? with
    | some (opcode, _) => .op opcode
    | none => .other n
  | _ => .other n

/-- The keyword as the table spells it. -/
def name (m : Mnemonic) : String :=
  match m with
  | .other n => s!"Mnemonic({n})"
  | m => (names[m.index.toNat]?).getD ""

/-- The opcode a keyword encodes to; directives have none. -/
def opcode? : Mnemonic → Option Opcode
  | .op opcode => some opcode
  | .sizedMove _ => some .mov
  | _ => none

/-- The size that the keyword states. -/
def size? : Mnemonic → Option Size
  | .sizedMove s => some s
  | _ => none

/-- Whether the keyword is a move, with or without a stated size. -/
def isMove : Mnemonic → Bool
  | .op .mov | .sizedMove _ => true
  | _ => false

end Mnemonic

end RegAsm.Machine
