/-
RegAsm.Sink — where output goes.

A sink keeps the pieces it is given.  One that refuses takes a number of pieces
first and then gives its reason.
-/

namespace RegAsm

/-- Something that takes pieces of output, unless it refuses. -/
structure Sink (α : Type) where
  /-- The pieces taken so far. -/
  pieces : List α := []
  /-- Why it refuses, if it does. -/
  refusal : Option String := none
  /-- How many pieces it takes before it refuses. -/
  room : Nat := 0
  deriving DecidableEq, Repr

namespace Sink

/-- Hands over one piece. -/
def write {α : Type} (s : Sink α) (piece : α) : Except String (Sink α) :=
  match s.refusal with
  | none => .ok { s with pieces := s.pieces ++ [piece] }
  | some reason =>
    if s.pieces.length < s.room then .ok { s with pieces := s.pieces ++ [piece] }
    else .error reason

/-- Offers one piece, and gives the reason if it is refused. -/
def offer {α : Type} (piece : α) (s : Sink α) : Option String × Sink α :=
  match s.write piece with
  | .ok s => (none, s)
  | .error reason => (some reason, s)

/-- Hands over pieces up to the first that is refused, and gives the reason. -/
def writeAll {α : Type} (s : Sink α) : List α → Sink α × Option String
  | [] => (s, none)
  | piece :: rest =>
    match s.write piece with
    | .ok s => s.writeAll rest
    | .error reason => (s, some reason)

end Sink

end RegAsm
