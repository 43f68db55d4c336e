/-
RegAsm.Machine.Size — operand sizes and little-endian values.

A sized instruction carries one size byte: a word is one byte wide, a dword
two and a qword four.  Values are stored low byte first.
-/

namespace RegAsm.Machine

/-- The size class of a sized instruction's source. -/
inductive Size where
  | word | dword | qword
  deriving DecidableEq, Repr, Inhabited

namespace Size

/-- The size byte. -/
def code : Size → UInt8
  | .word => 0
  | .dword => 1
  | .qword => 2

/-- The size a size byte stands for, if it is assigned. -/
def ofCode? : UInt8 → Option Size
  | 0 => some .word
  | 1 => some .dword
  | 2 => some .qword
  | _ => none

/-- The size a byte is treated as when it has to be one: an unassigned byte
counts as the widest. -/
def ofCode (b : UInt8) : Size := (ofCode? b).getD .qword

/-- The width of a value, in bytes. -/
def bytes : Size → Nat
  | .word => 1
  | .dword => 2
  | .qword => 4

/-- Whether a value can be stored in this size. -/
def fits (v : UInt32) : Size → Bool
  | .word => v ≤ 0xFF
  | .dword => v ≤ 0xFFFF
  | .qword => true

/-- The name of a size. -/
def name : Size → String
  | .word => "word"
  | .dword => "dword"
  | .qword => "qword"

/-- The letter that marks the size in a suffixed move. -/
def suffix : Size → String
  | .word => "w"
  | .dword => "d"
  | .qword => "q"

/-- The name of a byte in size position, assigned or not. -/
def nameOfCode (b : UInt8) : String :=
  match ofCode? b with
  | some s => s.name
  | none => s!"Size({b.toNat})"

/-- The smallest size that holds a value. -/
def least (v : UInt32) : Size :=
  if v ≤ 0xFF then .word else if v ≤ 0xFFFF then .dword else .qword

/-- The size of a given width in bytes. -/
def ofWidth? : Int → Option Size
  | 1 => some .word
  | 2 => some .dword
  | 4 => some .qword
  | _ => none

end Size

/-! ## Values as bytes -/

/-- The low byte of a value shifted right by a number of bits. -/
def byteAt (v : UInt32) (shift : UInt32) : UInt8 := (v >>> shift).toUInt8

/-- The four bytes of a value, the lowest first. -/
def fourBytes (v : UInt32) : List UInt8 := [byteAt v 0, byteAt v 8, byteAt v 16, byteAt v 24]

/-- A value as the bytes its size gives it, the lowest first. -/
def valueBytes (v : UInt32) : Size → List UInt8
  | .word => [byteAt v 0]
  | .dword => [byteAt v 0, byteAt v 8]
  | .qword => fourBytes v

/-- The number that little-endian bytes spell. -/
def ofBytes : List UInt8 → UInt32
  | [] => 0
  | b :: rest => b.toUInt32 ||| (ofBytes rest <<< 8)

/-- Why no value can be read. -/
inductive ReadError where
  /-- Fewer bytes are left than the width asks for. -/
  | short (need : Int) (left : Nat)
  /-- No value has this width. -/
  | width (w : Int)
  deriving DecidableEq, Repr

/-- The wording of a failed read. -/
def ReadError.message : ReadError → String
  | .short need left => s!"need {need} bytes, have {left}"
  | .width w => s!"invalid operand width {w}"

/-- Reads a value of width 1, 2 or 4 at an index of some bytes. -/
def readValue (bytes : Array UInt8) (start : Nat) (width : Int) : Except ReadError UInt32 :=
  let left := bytes.size - start
  if (left : Int) < width then .error (.short width left)
  else match Size.ofWidth? width with
    | some s => .ok (ofBytes (bytes.extract start (start + s.bytes)).toList)
    | none => .error (.width width)

end RegAsm.Machine
