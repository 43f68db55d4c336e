/-
RegAsm.Main — the command line.

The first word chooses the command: `assemble` or `disassemble`.  The rest are
the words of that command.
-/
import RegAsm.Command.Assemble
import RegAsm.Command.Disassemble
import RegAsm.Yaml.Codec

namespace RegAsm.Main

open Command

/-- Why a file of the system cannot be used. -/
def reason : IO.Error → String
  | .noFileOrDirectory .. => "no such file or directory"
  | .permissionDenied .. => "permission denied"
  | .inappropriateType .. => "is a directory"
  | e => e.toString

/-- A host that works on the files of the system. -/
def host : Host IO where
  readFile path := do
    try
      let bytes ← IO.FS.readBinFile path
      return .ok bytes.data
    catch e => return .error { path, reason := reason e }
  writeFile path content := do
    try
      IO.FS.writeBinFile path ⟨content⟩
      return .ok ()
    catch e => return .error { path, reason := reason e }
  print text := do (← IO.getStdout).putStr text
  report text := do (← IO.getStderr).putStr text

end RegAsm.Main

/-- Runs one of the commands. -/
def main (words : List String) : IO UInt32 :=
  match words with
  | "assemble" :: rest => RegAsm.Command.assemble RegAsm.Yaml.codec RegAsm.Main.host rest
  | "disassemble" :: rest => RegAsm.Command.disassemble RegAsm.Yaml.codec RegAsm.Main.host rest
  | _ => do
    IO.eprintln "usage: regasm (assemble | disassemble) [flags] arguments"
    return 1
