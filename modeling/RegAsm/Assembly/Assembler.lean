/-
RegAsm.Assembly.Assembler — assembling source texts, one after the other.

An assembler keeps the state of its last run: the labels, the places of the
instructions and the image, and all else that the run left where it stopped.
The next run starts from that state.  A text that cannot be read starts no run.
-/
import RegAsm.Assembly.Run
import RegAsm.Program.Source
import RegAsm.Sink

namespace RegAsm

/-- Why a source text has no image. -/
inductive AssemblyError where
  /-- The text cannot be read. -/
  | parse (e : ParseError)
  /-- The program cannot be assembled. -/
  | program (e : ProgramError)
  /-- The image cannot be handed over. -/
  | write (reason : String)
  deriving DecidableEq, Repr

/-- The wording of the error. -/
def AssemblyError.message : AssemblyError → String
  | .parse e => "parsing error: " ++ e.message
  | .program e => e.message
  | .write reason => "writing image: " ++ reason

/-- An assembler, with the state that its last run left. -/
structure Assembler where
  last : Run := {}

namespace Assembler

/-- Assembles a program. -/
def assembleProgram (a : Assembler) (program : List Statement) :
    Except AssemblyError Image × Assembler :=
  let (result, last) := a.last.assemble program
  (result.mapError .program, { last })

/-- Assembles a source text. -/
def assemble (a : Assembler) (source : String) : Except AssemblyError Image × Assembler :=
  match parse source with
  | .error e => (.error (.parse e), a)
  | .ok program => a.assembleProgram program

/-- Assembles a source text and hands the image to a writer in one piece.  A writer
has a state and answers with the reason why it refuses, if it does. -/
def assembleInto {ω : Type} (write : Image → ω → Option String × ω) (a : Assembler)
    (source : String) (w : ω) : Except AssemblyError Unit × ω × Assembler :=
  match a.assemble source with
  | (.error e, a) => (.error e, w, a)
  | (.ok image, a) =>
    match write image w with
    | (none, w) => (.ok (), w, a)
    | (some reason, w) => (.error (.write reason), w, a)

/-- Assembles a source text into a sink. -/
def assembleTo (a : Assembler) (sink : Sink Image) (source : String) :
    Except AssemblyError (Sink Image) × Assembler :=
  let (result, sink, a) := a.assembleInto Sink.offer source sink
  (result.map fun _ => sink, a)

/-- Every label of the last run in order of declaration. -/
def symbols (a : Assembler) : List Symbol := a.last.declared.toList

/-- The places of the last run's instructions. -/
def layouts (a : Assembler) : List Machine.Layout := a.last.layouts.toList

/-- The size of the last run's image. -/
def size (a : Assembler) : Nat := a.last.code.size

end Assembler

end RegAsm
