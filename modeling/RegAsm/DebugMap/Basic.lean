/-
RegAsm.DebugMap.Basic — what a listing needs beside an image.

A debug map names the source and the size of an image and holds its symbols
and the layouts of its instructions, in the order of assembly.
-/
import RegAsm.Assembly.Assembler
import RegAsm.Symbol.Labels

namespace RegAsm

/-- A description of an assembled image. -/
structure DebugMap where
  source : String := ""
  size : Int := 0
  symbols : List Symbol := []
  layouts : List Machine.Layout := []
  deriving DecidableEq, Repr, Inhabited

namespace DebugMap

/-- The symbols of a map by address. -/
def labels (m : DebugMap) : Labels := Labels.ofSymbols m.symbols

end DebugMap

/-- The map of an assembler's last run. -/
def Assembler.debugMap (a : Assembler) (source : String) : DebugMap :=
  { source, size := a.size, symbols := a.symbols, layouts := a.layouts }

end RegAsm
