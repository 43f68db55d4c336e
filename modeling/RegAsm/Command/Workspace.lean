/-
RegAsm.Command.Workspace — files in memory.

A file is known by the names on the way to it.  A directory exists if a file is
under it, and the working directory always does.
-/
import RegAsm.Command.Host

namespace RegAsm.Command

/-- Files and what was said on the two channels. -/
structure Workspace where
  files : List (List String × Array UInt8) := []
  output : String := ""
  messages : String := ""
  deriving Inhabited

/-- The names on the way to a file, unless it leads out of the working
directory. -/
def pathNames? (path : String) : Option (List String) :=
  if path == "" || path.toList.head? == some '/' then none
  else
    ((path.splitOn "/").filter fun n => n != "" && n != ".").foldl (fun acc n => do
      let names ← acc
      if n == ".." then (if names.isEmpty then none else some names.dropLast)
      else some (names ++ [n])) (some [])

/-- What stands at a path. -/
inductive Place where
  | file (content : Array UInt8)
  | directory
  | missing
  | underFile

namespace Workspace

/-- The content of a file. -/
def file? (w : Workspace) (names : List String) : Option (Array UInt8) := w.files.lookup names

/-- Whether names lead to a directory. -/
def isDirectory (w : Workspace) (names : List String) : Bool :=
  names.isEmpty || w.files.any fun f => names.isPrefixOf f.1 && names.length < f.1.length

/-- Whether a file is on the way. -/
def crossesFile (w : Workspace) (names : List String) : Bool :=
  w.files.any fun f => f.1.isPrefixOf names && f.1.length < names.length

/-- What stands at a path. -/
def locate (w : Workspace) (path : String) : Place :=
  match pathNames? path with
  | none => .missing
  | some names =>
    if w.crossesFile names then .underFile
    else match w.file? names with
      | some content => if path.toList.getLast? == some '/' then .underFile else .file content
      | none => if w.isDirectory names then .directory else .missing

/-- Reads a file. -/
def read (w : Workspace) (path : String) : Except FileError (Array UInt8) :=
  match w.locate path with
  | .file content => .ok content
  | .directory => .error { wasOpened := true, path, reason := "is a directory" }
  | .missing => .error { path, reason := "no such file or directory" }
  | .underFile => .error { path, reason := "not a directory" }

/-- Puts a file in its place. -/
def put (w : Workspace) (names : List String) (content : Array UInt8) : Workspace :=
  if (w.file? names).isSome then
    { w with files := w.files.map fun f => if f.1 == names then (names, content) else f }
  else { w with files := w.files ++ [(names, content)] }

/-- Writes a file.  Its directory has to exist. -/
def write (w : Workspace) (path : String) (content : Array UInt8) :
    Except FileError Workspace :=
  let missing : Except FileError Workspace :=
    .error { path, reason := "no such file or directory" }
  match w.locate path, pathNames? path with
  | .file _, some names => .ok (w.put names content)
  | .directory, _ => .error { path, reason := "is a directory" }
  | .underFile, _ => .error { path, reason := "not a directory" }
  | .missing, some names =>
    if !w.isDirectory names.dropLast then missing
    else if path.toList.getLast? == some '/' then .error { path, reason := "is a directory" }
    else .ok (w.put names content)
  | _, none => missing

/-- A workspace that holds files under their paths. -/
def ofFiles (files : List (String × Array UInt8)) : Workspace :=
  { files := files.filterMap fun f => (pathNames? f.1).map fun names => (names, f.2) }

/-- A host that works on files in memory. -/
def host : Host (StateM Workspace) where
  readFile path := do return (← get).read path
  writeFile path content := do
    match (← get).write path content with
    | .ok w => set w; return .ok ()
    | .error e => return .error e
  print text := modify fun w => { w with output := w.output ++ text }
  report text := modify fun w => { w with messages := w.messages ++ text }

end Workspace

end RegAsm.Command
