/-
RegAsm.Machine.Register — register numbers and names.

The general registers come in groups of seven: the full register and its
parts H, L, HH, HL, LH and LL.  The special registers follow.  An operand
holds a register number; numbers past the last name are unassigned.
-/

namespace RegAsm.Machine

/-- A register number as operand bytes hold it. -/
structure Register where
  number : UInt8
  deriving DecidableEq, Repr, Inhabited

namespace Register

/-- The register names, indexed by number. -/
def names : List String :=
  ["A", "AH", "AL", "AHH", "AHL", "ALH", "ALL",
   "B", "BH", "BL", "BHH", "BHL", "BLH", "BLL",
   "C", "CH", "CL", "CHH", "CHL", "CLH", "CLL",
   "D", "DH", "DL", "DHH", "DHL", "DLH", "DLL",
   "E", "EH", "EL", "EHH", "EHL", "ELH", "ELL",
   "F", "FH", "FL", "FHH", "FHL", "FLH", "FLL",
   "W", "WH", "WL", "WHH", "WHL", "WLH", "WLL",
   "X", "XH", "XL", "XHH", "XHL", "XLH", "XLL",
   "Y", "YH", "YL", "YHH", "YHL", "YLH", "YLL",
   "Z", "ZH", "ZL", "ZHH", "ZHL", "ZLH", "ZLL",
   "FLAGS", "CLOCKS", "CS", "DS", "SS", "PC", "SP", "BP"]

/-- Whether the number names a register. -/
def isAssigned (r : Register) : Bool := r.number.toNat < names.length

/-- The register's name, or its number after an `R`. -/
def name (r : Register) : String := (names[r.number.toNat]?).getD s!"R{r.number.toNat}"

/-- The register whose number is the low byte of an integer. -/
def ofInt (n : Int) : Register := ⟨UInt8.ofInt n⟩

end Register

end RegAsm.Machine
