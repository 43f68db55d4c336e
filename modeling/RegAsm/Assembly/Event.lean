/-
RegAsm.Assembly.Event — what an assembly run reports as it goes.
-/
import RegAsm.Machine.Mode
import RegAsm.Program.Statement

namespace RegAsm

open Machine

/-- One step of a run worth reporting. -/
inductive Event where
  /-- A label got its address. -/
  | declared (label : String) (address : UInt32)
  /-- A reference that had waited got its address. -/
  | patched (label : String) (offset address : UInt32)
  /-- A reference has to wait for its label. -/
  | deferred (label : String) (offset : UInt32)
  /-- An instruction with operands was placed. -/
  | emitted (statement : Statement) (offset : UInt32) (op : Opcode) (mode : Mode)
  /-- Data were placed. -/
  | placed (offset : UInt32) (bytes : Nat)
  /-- The run is over. -/
  | completed (bytes symbols : Nat)
  deriving DecidableEq, Repr

namespace Event

/-- The headline of a report. -/
def message : Event → String
  | .declared _ _ => "declared label"
  | .patched _ _ _ => "patched reference"
  | .deferred _ _ => "deferred reference"
  | .emitted s _ _ _ => "emitted " ++ s.render
  | .placed _ _ => "emitted data"
  | .completed _ _ => "assembly complete"

/-- The particulars of a report, by name. -/
def fields : Event → List (String × String)
  | .declared label address => [("address", s!"{address.toNat}"), ("label", label)]
  | .patched label offset address =>
    [("address", s!"{address.toNat}"), ("offset", s!"{offset.toNat}"), ("symbol", label)]
  | .deferred label offset => [("offset", s!"{offset.toNat}"), ("symbol", label)]
  | .emitted _ offset op mode =>
    [("mode", mode.name), ("offset", s!"{offset.toNat}"), ("op", op.name)]
  | .placed offset bytes => [("bytes", s!"{bytes}"), ("offset", s!"{offset.toNat}")]
  | .completed bytes symbols => [("bytes", s!"{bytes}"), ("symbols", s!"{symbols}")]

end Event

end RegAsm
