/-
RegAsm.Command.Disassemble — the command that lists an image.
-/
import RegAsm.Command.Flags
import RegAsm.Command.Host
import RegAsm.DebugMap.Text
import RegAsm.Listing.Disassembly

namespace RegAsm.Command

/-- The flags of the command. -/
def disassembleFlags : List Flag :=
  [{ name := "map", letter := some 'm' }, { name := "log-level" }]

variable {ε : Type} {m : Type → Type} [Monad m]

/-- Reads the debug map of an image.  Without one the whole image is data. -/
def readMap (package : Yaml.Package ε) (host : Host m) (level : LogLevel) (path image : String)
    (size : Nat) : ExceptT String m DebugMap := do
  if path == "" then
    host.log level
      { level := .warning, message := "No debug map given; the whole image is listed as data" }
    return {}
  let bytes ← match ← host.readFile path with
    | .ok bytes => pure bytes
    | .error e =>
      if e.wasOpened then
        throw ((DebugMap.TextError.decoding (package.broken e.message)).message package)
      else throw ("opening debug map: " ++ e.message)
  match DebugMap.read package (String.ofList (Text.decode bytes.toList)) with
  | .error e => throw (e.message package)
  | .ok map =>
    if map.size != 0 && map.size != size then
      host.log level
        { level := .warning
          message := image ++ " is " ++ toString size ++ " bytes but the map describes " ++
            toString map.size }
    return map

/-- Lists an image, on the channel for results or into a file. -/
def listImage (package : Yaml.Package ε) (host : Host m) (level : LogLevel)
    (mapPath image : String) (output : Option String) : ExceptT String m Unit := do
  let code ← match ← host.readFile image with
    | .ok code => pure code
    | .error e => throw ("reading image: " ++ e.message)
  let map ← readMap package host level mapPath image code.size
  match RegAsm.disassemble code map.layouts map.labels with
  | .error e => throw e.message
  | .ok text =>
    match output with
    | none => host.print text
    | some path =>
      match ← host.writeFile path (Text.encode text).toArray with
      | .error e => throw ("writing listing: " ++ e.message)
      | .ok () =>
        host.log level
          { level := .info
            message := "Disassembled " ++ sizeText code.size ++ " to " ++ path }

/-- Runs the command with its words and gives the exit code. -/
def disassemble (package : Yaml.Package ε) (host : Host m) (words : List String) : m UInt32 := do
  match CommandLine.ofWords disassembleFlags 1 2 words with
  | .error e => host.fail .info e.message
  | .ok line =>
    let levelName := (line.value? "log-level").getD "warn"
    match LogLevel.ofName? levelName with
    | none => host.fail .info (LogLevel.unknownMessage levelName)
    | some level =>
      let mapPath := (line.value? "map").getD ""
      let image := line.arguments.headD ""
      match ← (listImage package host level mapPath image line.arguments[1]?).run with
      | .error message => host.fail level message
      | .ok () => pure 0

end RegAsm.Command
