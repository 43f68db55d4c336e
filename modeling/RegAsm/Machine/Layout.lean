/-
RegAsm.Machine.Layout — where an instruction lies in an image.

The bytes of an instruction do not say how wide its immediates are, so the
assembler records for each instruction its place, its length and the widths of
its operands.
-/

namespace RegAsm.Machine

/-- The place of one instruction and the widths of its operands.  Lengths and
widths may come from a file, so they can be any integer. -/
structure Layout where
  offset : UInt32
  length : Int
  widths : List Int
  deriving DecidableEq, Repr, Inhabited

/-- The offset just past the instruction, in 32-bit arithmetic. -/
def Layout.stop (l : Layout) : UInt32 := l.offset + UInt32.ofInt l.length

end RegAsm.Machine
