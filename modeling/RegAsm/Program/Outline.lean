/-
RegAsm.Program.Outline — handing over the outline of a program.
-/
import RegAsm.Program.Statement
import RegAsm.Sink

namespace RegAsm

/-- The lines of a program's outline. -/
def outlineLines (program : List Statement) : List String :=
  (outline program).map fun e => e.render ++ "\n"

/-- Hands over the outline, one line at a time. -/
def writeOutline (program : List Statement) (sink : Sink String) : Sink String × Option String :=
  sink.writeAll (outlineLines program)

end RegAsm
