/-
RegAsm.Machine.Opcode — the operations of the machine.

Every instruction starts with one opcode byte.  The assigned opcodes are
numbered from zero in the order of the constructors; the bytes after the last
one are unassigned.
-/

namespace RegAsm.Machine

/-- An operation of the machine. -/
inductive Opcode where
  | nop | mov | cmp | cmps | jmp | je | jne | jg | jge | jl | jle
  | call | calle | callne | callg | callge | calll | callle
  | int | ret | iret | cli | sti | inc | dec
  | add | sub | mul | div | mod | not | and | or | xor | shl | shr
  | push | pop | pusha | popa
  | adds | subs | muls | divs | mods | nots | ands | ors | xors | shls | shrs
  | mmset | mmcpy | inb | inw | inq | outb | outw | outq | ldidt | hlt
  deriving DecidableEq, Repr, Inhabited

namespace Opcode

/-- The assigned opcodes with their names, in encoding order. -/
def table : List (Opcode × String) :=
  [(.nop, "nop"), (.mov, "mov"), (.cmp, "cmp"), (.cmps, "cmps"), (.jmp, "jmp"), (.je, "je"),
   (.jne, "jne"), (.jg, "jg"), (.jge, "jge"), (.jl, "jl"), (.jle, "jle"), (.call, "call"),
   (.calle, "calle"), (.callne, "callne"), (.callg, "callg"), (.callge, "callge"),
   (.calll, "calll"), (.callle, "callle"), (.int, "int"), (.ret, "ret"), (.iret, "iret"),
   (.cli, "cli"), (.sti, "sti"), (.inc, "inc"), (.dec, "dec"), (.add, "add"), (.sub, "sub"),
   (.mul, "mul"), (.div, "div"), (.mod, "mod"), (.not, "not"), (.and, "and"), (.or, "or"),
   (.xor, "xor"), (.shl, "shl"), (.shr, "shr"), (.push, "push"), (.pop, "pop"),
   (.pusha, "pusha"), (.popa, "popa"), (.adds, "adds"), (.subs, "subs"), (.muls, "muls"),
   (.divs, "divs"), (.mods, "mods"), (.nots, "nots"), (.ands, "ands"), (.ors, "ors"),
   (.xors, "xors"), (.shls, "shls"), (.shrs, "shrs"), (.mmset, "mmset"), (.mmcpy, "mmcpy"),
   (.inb, "inb"), (.inw, "inw"), (.inq, "inq"), (.outb, "outb"), (.outw, "outw"),
   (.outq, "outq"), (.ldidt, "ldidt"), (.hlt, "hlt")]

/-- The opcode's number. -/
def number (op : Opcode) : Nat := op.ctorIdx

/-- The byte an instruction of this opcode starts with. -/
def code (op : Opcode) : UInt8 := UInt8.ofNat op.number

/-- The opcode a byte stands for, if it is assigned. -/
def ofCode? (b : UInt8) : Option Opcode := table[b.toNat]?.map Prod.fst

/-- The lower-case instruction name. -/
def name (op : Opcode) : String := (table[op.number]?.map Prod.snd).getD ""

/-- The name of a byte in opcode position, assigned or not. -/
def nameOfCode (b : UInt8) : String :=
  match ofCode? b with
  | some op => op.name
  | none => s!"op{b.toNat}"

/-- Whether the encoding carries a size byte after the mode byte. -/
def hasSize : Opcode → Bool
  | .mov | .add | .mul | .cmp => true
  | _ => false

@[simp]
theorem ofCode?_code (op : Opcode) : ofCode? op.code = some op := by
  cases op <;> rfl

end Opcode

end RegAsm.Machine
