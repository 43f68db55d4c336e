/-
RegAsm.Source.Position — places in a source text.
-/

namespace RegAsm.Source

/-- A place in a text: lines count from 1, columns from 0. -/
structure Position where
  line : Int
  column : Int
  deriving DecidableEq, Repr, Inhabited

namespace Position

/-- Where a text starts. -/
def start : Position := ⟨1, 0⟩

/-- The place of a value that came from no text. -/
def nowhere : Position := ⟨0, 0⟩

/-- The place after one item, which may end its line. -/
def next (p : Position) (endsLine : Bool) : Position :=
  if endsLine then ⟨p.line + 1, 0⟩ else ⟨p.line, p.column + 1⟩

/-- The column as messages count it, from 1.  Columns are 64-bit words, so
the number after the greatest one is the least one. -/
def columnNumber (p : Position) : Int := (p.column + 1).bmod UInt64.size

/-- The place as `line:column`. -/
def render (p : Position) : String := s!"{p.line}:{p.columnNumber}"

/-- The place as it opens a message. -/
def describe (p : Position) : String := s!"line {p.line}, column {p.columnNumber}"

end Position

end RegAsm.Source
