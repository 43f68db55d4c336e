/-
RegAsm.Command.Host — what a command may do.

A command reads and writes files and talks on two channels.  It is written once
for any host, so the same command runs on real files and on files in memory.
-/
import RegAsm.Command.Log

namespace RegAsm.Command

/-- Why a file cannot be used. -/
structure FileError where
  /-- Whether the file was found and then could not be read. -/
  wasOpened : Bool := false
  path : String
  reason : String
  deriving DecidableEq, Repr

/-- The wording of the error. -/
def FileError.message (e : FileError) : String :=
  (if e.wasOpened then "read " else "open ") ++ e.path ++ ": " ++ e.reason

/-- The means of a command. -/
structure Host (m : Type → Type) where
  readFile : String → m (Except FileError (Array UInt8))
  writeFile : String → Array UInt8 → m (Except FileError Unit)
  /-- Shows a result. -/
  print : String → m Unit
  /-- Shows a message about the run. -/
  report : String → m Unit

namespace Host

variable {m : Type → Type} [Monad m]

/-- Shows a log line if its level is admitted. -/
def log (host : Host m) (threshold : LogLevel) (line : LogLine) : m Unit :=
  if threshold.admits line.level then host.report line.render else pure ()

/-- Ends a run with an error. -/
def fail (host : Host m) (threshold : LogLevel) (message : String) : m UInt32 := do
  host.report ("Error: " ++ message ++ "\n")
  host.log threshold { level := .error, message }
  pure 1

end Host

/-- A size as it is reported. -/
def sizeText (bytes : Nat) : String :=
  if bytes < 1024 then s!"{bytes}B" else s!"{bytes / 1024} kiB"

end RegAsm.Command
