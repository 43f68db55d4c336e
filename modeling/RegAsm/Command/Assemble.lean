/-
RegAsm.Command.Assemble — the command that assembles a file.
-/
import RegAsm.Command.Host
import RegAsm.Command.Settings
import RegAsm.DebugMap.Text
import RegAsm.Program.Outline

namespace RegAsm.Command

/-- The flags of the command. -/
def assembleFlags : List Flag :=
  [{ name := "output", letter := some 'o' },
   { name := "map", letter := some 'm' },
   { name := "trace", isSwitch := true },
   { name := "dump-ast", isSwitch := true },
   { name := "log-level" },
   { name := "config", letter := some 'c' }]

/-- A program shown statement by statement. -/
def dumpText (program : List Statement) : String :=
  if program.isEmpty then "([]*assembler.Node) <nil>\n"
  else
    "([]*assembler.Node) (len=" ++ toString program.length ++ ") \x7b\n" ++
      ",\n".intercalate (program.map fun s => "  (*assembler.Node)(" ++ s.render ++ ")") ++
      "\n\x7d\n"

/-- The name of the image: the source's name with its last extension replaced. -/
def imageName (source : String) : String :=
  let reversed := source.toList.reverse
  let file := reversed.takeWhile (· != '/')
  let stem := if file.contains '.' then (reversed.dropWhile (· != '.')).drop 1 else reversed
  String.ofList stem.reverse ++ ".bin"

variable {ε : Type} {m : Type → Type} [Monad m]

/-- Finds the settings of a run and warns of unknown keys. -/
def settle (host : Host m) (line : CommandLine) : ExceptT String m Settings := do
  let path := (line.value? "config").getD ""
  if path == "" then return ({} : Settings).withFlags line
  let wrap := fun (reason : String) => "reading config " ++ path ++ ": " ++ reason
  match ← host.readFile path with
  | .error e => throw (wrap e.message)
  | .ok bytes =>
    match Settings.ofText (String.ofList (Text.decode bytes.toList)) with
    | .error reason => throw (wrap reason)
    | .ok (settings, unknown) =>
      for key in unknown do
        host.log .info
          { level := .warning
            message := "Unknown config key " ++ Text.quoted key ++ " in " ++ path }
      return settings.withFlags line

/-- Assembles a source file and writes what the settings ask for. -/
def assembleFile (package : Yaml.Package ε) (host : Host m) (level : LogLevel)
    (settings : Settings) (source : String) : ExceptT String m Unit := do
  let bytes ← match ← host.readFile source with
    | .ok bytes => pure bytes
    | .error e => throw ("reading source: " ++ e.message)
  let program ← match parse (String.ofList (Text.decode bytes.toList)) with
    | .ok program => pure program
    | .error e => throw (source ++ ": " ++ e.message)
  if settings.dump then host.print (dumpText program)
  if settings.trace then
    for line in outlineLines program do host.print line
  let (result, assembler) := ({} : Assembler).assembleProgram program
  for event in assembler.last.events.toList do
    host.log level
      { level := .debug, message := event.message, fields := ("source", source) :: event.fields }
  let code ← match result with
    | .ok code => pure code
    | .error e => throw (source ++ ": " ++ e.message)
  let output := if settings.output == "" then imageName source else settings.output
  match ← host.writeFile output code with
  | .error e => throw ("writing image: " ++ e.message)
  | .ok () =>
    host.log level
      { level := .info, message := "Wrote " ++ sizeText code.size ++ " to " ++ output }
  if settings.map != "" then
    let text := String.join ((assembler.debugMap source).pieces package)
    match ← host.writeFile settings.map (Text.encode text).toArray with
    | .error e => throw ("creating debug map: " ++ e.message)
    | .ok () =>
      host.log level { level := .info, message := "Wrote debug map to " ++ settings.map }

/-- Runs the command with its words and gives the exit code. -/
def assemble (package : Yaml.Package ε) (host : Host m) (words : List String) : m UInt32 := do
  match CommandLine.ofWords assembleFlags 1 1 words with
  | .error e => host.fail .info e.message
  | .ok line =>
    match ← (settle host line).run with
    | .error message => host.fail .info message
    | .ok settings =>
      match LogLevel.ofName? settings.logLevel with
      | none => host.fail .info (LogLevel.unknownMessage settings.logLevel)
      | some level =>
        match ← (assembleFile package host level settings (line.arguments.headD "")).run with
        | .error message => host.fail level message
        | .ok () => pure 0

end RegAsm.Command
