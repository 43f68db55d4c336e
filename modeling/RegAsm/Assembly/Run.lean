/-
RegAsm.Assembly.Run — assembling a program in one pass.

A run places the statements one after the other.  A reference to a label that
is not visible yet leaves four zero bytes and waits; it is patched when the
next global label, or the end of the program, finds its label visible.  A
global label ends a region: local references that still wait then can never be
resolved, and all local labels go out of sight.

One state serves any number of runs.  Each run starts by clearing what the one
before it left, wherever that one stopped.  Only the reports are kept.

1. The state of a run.
2. References.
3. Statements.
4. Whole programs.
-/
import RegAsm.Assembly.Encoding
import RegAsm.Assembly.Event
import RegAsm.Symbol.Table

namespace RegAsm

open Machine
open Source (Position)

/-! ## 1. State -/

/-- The bytes of a program. -/
abbrev Image := Array UInt8

/-- A mention of a label, with the offset of the four bytes it fills. -/
structure Reference where
  label : String
  offset : UInt32
  pos : Position
  deriving DecidableEq, Repr, Inhabited

/-- The wording for a reference whose label never appeared. -/
def Reference.message (r : Reference) : String :=
  r.pos.describe ++ ": undefined symbol " ++ Text.quoted r.label ++
    s!" (placeholder at offset {r.offset.toNat})"

/-- Whether a label is local: its name starts with a dot. -/
def isLocalName (name : String) : Bool := name.toList.head? == some '.'

/-- The state of a run, and what it leaves for the next one. -/
structure Run where
  /-- The names that are visible. -/
  table : SymbolTable := .empty
  /-- The bytes placed so far. -/
  code : Image := #[]
  /-- The references that wait for their labels. -/
  pending : Array Reference := #[]
  /-- The places of the instructions. -/
  layouts : Array Layout := #[]
  /-- Every label declared so far. -/
  declared : Array Symbol := #[]
  /-- The references whose labels can no longer appear. -/
  undefined : Array Reference := #[]
  /-- What was reported. -/
  events : Array Event := #[]
  deriving Inhabited

/-- Why a run stopped at a statement. -/
inductive Fault where
  /-- A statement of a kind has no machine form. -/
  | encoding (pos : Position) (kind : String) (fault : EncodingFault)
  /-- A label repeats. -/
  | duplicate (pos : Position) (error : SymbolError)
  deriving DecidableEq, Repr

/-- The wording of the fault. -/
def Fault.message : Fault → String
  | .encoding pos kind fault => pos.describe ++ ": cannot encode " ++ kind ++ ": " ++ fault.reason
  | .duplicate pos error => pos.describe ++ ": " ++ error.message

namespace Run

/-- The offset of the next byte. -/
def offset (r : Run) : UInt32 := UInt32.ofNat r.code.size

/-- Adds bytes to the image. -/
def append (r : Run) (bytes : List UInt8) : Run := { r with code := r.code ++ bytes }

/-- Adds a report. -/
def report (r : Run) (e : Event) : Run := { r with events := r.events.push e }

/-! ## 2. References -/

/-- An image with the four bytes of a value at an offset. -/
def patchCode (code : Image) (offset : UInt32) (v : UInt32) : Image :=
  let i := offset.toNat
  (((code.setIfInBounds i (byteAt v 0)).setIfInBounds (i + 1) (byteAt v 8)).setIfInBounds (i + 2)
    (byteAt v 16)).setIfInBounds (i + 3) (byteAt v 24)

/-- Fills a reference if its label is visible, and keeps it waiting if not. -/
def settle (r : Run) (ref : Reference) : Run :=
  match r.table.find? ref.label with
  | some address =>
    { r with
      code := patchCode r.code ref.offset address
      events := r.events.push (.patched ref.label ref.offset address) }
  | none => { r with pending := r.pending.push ref }

/-- Fills every waiting reference whose label is visible. -/
def patch (r : Run) : Run := r.pending.foldl settle { r with pending := #[] }

/-- Gives up the local references that still wait. -/
def closeRegion (r : Run) : Run :=
  { r with
    pending := r.pending.filter (!isLocalName ·.label)
    undefined := r.undefined ++ r.pending.filter (isLocalName ·.label) }

/-- Writes the address of a label, or leaves room for it. -/
def refer (r : Run) (label : String) (pos : Position) : Run :=
  match r.table.find? label with
  | some address => r.append (fourBytes address)
  | none =>
    { r with
      pending := r.pending.push ⟨label, r.offset, pos⟩
      code := r.code ++ fourBytes 0
      events := r.events.push (.deferred label r.offset) }

/-! ## 3. Statements -/

/-- Writes one field of an instruction. -/
def writeField (r : Run) : Field → Run
  | .byte b => r.append [b]
  | .value v size => r.append (valueBytes v size)
  | .address label pos => r.refer label pos

/-- Writes an instruction and records its place. -/
def writeEncoding (r : Run) (statement : Statement) (e : Encoding) : Run :=
  let start := r.offset
  let r := e.fields.foldl writeField (r.append e.head)
  let layout : Layout := ⟨start, e.length, e.widths.map Int.ofNat⟩
  let r := { r with layouts := r.layouts.push layout }
  match e.mode with
  | some mode => r.report (.emitted statement start e.opcode mode)
  | none => r

/-- Gives a label the address of the next byte. -/
def declare (r : Run) (name : String) (pos : Position) : Except (Fault × Run) Run :=
  match r.table.declare name r.offset with
  | .error e => .error (.duplicate pos e, r)
  | .ok table =>
    .ok { r with
      table
      declared := r.declared.push ⟨name, r.offset⟩
      events := r.events.push (.declared name r.offset) }

/-- Does something a number of times, as long as it succeeds. -/
def repeatedly (f : Run → Except (Fault × Run) Run) : Nat → Run → Except (Fault × Run) Run
  | 0, r => .ok r
  | n + 1, r =>
    match f r with
    | .ok r => repeatedly f n r
    | .error e => .error e

/-- Places one statement.  A failure comes with the state it left. -/
def emit (s : Statement) (r : Run) : Except (Fault × Run) Run :=
  match s with
  | .label name pos =>
    let r := r.patch.closeRegion
    { r with table := r.table.toGlobal }.declare name pos
  | .localLabel name pos => { r with table := r.table.pushNamed name }.declare name pos
  | .instruction m operands pos =>
    match Encoding.of m operands with
    | .ok e => .ok (r.writeEncoding (.instruction m operands pos) e)
    | .error f => .error (.encoding pos (Statement.instructionKind m) f, r)
  | .data items pos =>
    match dataBytes items with
    | .ok bytes =>
      let start := r.offset
      .ok ((r.append bytes).report (.placed start bytes.length))
    | .error f => .error (.encoding pos "Db" f, r)
  | .times count body _ => repeatedly (emit body) count.toNat r
  | .bareTimes _ pos => .error (.encoding pos "Times" .nothingToRepeat, r)
  | .other tag m _ pos =>
    .error (.encoding pos (Statement.instructionKind m) (.unknownStatement tag), r)

/-- Places statements one after the other. -/
def emitAll : List Statement → Run → Except (Fault × Run) Run
  | [], r => .ok r
  | s :: rest, r =>
    match emit s r with
    | .ok r => emitAll rest r
    | .error e => .error e

/-- Ends a run: the last references are filled, and those that still wait have
no label. -/
def finish (r : Run) : Run :=
  let r := r.patch
  { r with undefined := r.undefined ++ r.pending, pending := #[] }

/-- A run without its image. -/
def withoutCode (r : Run) : Run := { r with code := #[] }

/-- Clears all that a run builds up.  What was reported stays reported. -/
def reset (r : Run) : Run :=
  { r with
    table := .empty
    code := #[]
    pending := #[]
    layouts := #[]
    declared := #[]
    undefined := #[] }

end Run

/-! ## 4. Programs -/

/-- Why a program has no image. -/
inductive ProgramError where
  /-- A statement could not be placed. -/
  | fault (f : Fault)
  /-- Some references have no label. -/
  | undefined (refs : List Reference)
  deriving DecidableEq, Repr

/-- Several messages as one. -/
def listMessages (messages : List String) : String :=
  let count := if messages.length = 1 then "1 error" else s!"{messages.length} errors"
  let lines := messages.map fun m => "\t* " ++ m
  count ++ " occurred:\n" ++ String.intercalate "\n" lines ++ "\n\n"

/-- The wording of the error. -/
def ProgramError.message : ProgramError → String
  | .fault f => f.message
  | .undefined refs => listMessages (refs.map Reference.message)

/-- Assembles a program with the state that some earlier run left.  The end state
is kept also when the run fails, but then without an image. -/
def Run.assemble (r : Run) (program : List Statement) : Except ProgramError Image × Run :=
  match emitAll program r.reset with
  | .error (f, r) => (.error (.fault f), r.withoutCode)
  | .ok r =>
    let r := r.finish
    if r.undefined.isEmpty then
      (.ok r.code, r.report (.completed r.code.size r.declared.size))
    else (.error (.undefined r.undefined.toList), r.withoutCode)

/-- Assembles a program as the first one. -/
def assembleProgram (program : List Statement) : Except ProgramError Image × Run :=
  ({} : Run).assemble program

end RegAsm
