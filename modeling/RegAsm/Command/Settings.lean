/-
RegAsm.Command.Settings — the settings of an assembly.

Settings come from a file and from the command line.  What is given on the
command line wins; without a file, the defaults fill the rest.
-/
import RegAsm.Command.Flags
import RegAsm.Toml.Reader

namespace RegAsm.Command

/-- The settings of one run. -/
structure Settings where
  output : String := ""
  map : String := ""
  trace : Bool := false
  dump : Bool := false
  logLevel : String := "warn"
  deriving DecidableEq, Repr

namespace Settings

/-- A letter in lower case; two letters count as plain ones. -/
def foldLetter (c : Char) : Char :=
  if c.toNat = 0x17F then 's' else if c.toNat = 0x212A then 'k' else c.toLower

/-- Whether two names are the same but for case. -/
def sameName (a b : String) : Bool := a.toList.map foldLetter == b.toList.map foldLetter

/-- A setting of a file: its name and how it is taken. -/
structure Item where
  name : String
  /-- The name of the kind of value it takes. -/
  kind : String
  take? : Toml.Value → Settings → Option Settings

/-- A setting that is a text. -/
def textItem (name : String) (set : Settings → String → Settings) : Item where
  name
  kind := "string"
  take? v s := match v with
    | .string text => some (set s text)
    | _ => none

/-- A setting that is a switch. -/
def switchItem (name : String) (set : Settings → Bool → Settings) : Item where
  name
  kind := "boolean"
  take? v s := match v with
    | .boolean b => some (set s b)
    | _ => none

/-- The settings that a file can hold. -/
def items : List Item :=
  [textItem "output" fun s output => { s with output },
   textItem "map" fun s map => { s with map },
   switchItem "trace" fun s trace => { s with trace },
   switchItem "dump_ast" fun s dump => { s with dump },
   textItem "log_level" fun s logLevel => { s with logLevel }]

/-- The table that holds the settings. -/
def tableName : String := "assembler"

/-- Takes one entry of a file.  An entry that is no setting is remembered. -/
def takeEntry (acc : Settings × List String) (e : Toml.Entry) :
    Except String (Settings × List String) :=
  let unknown := .ok (acc.1, acc.2 ++ [Toml.showPath e.path])
  match e.path with
  | [table] =>
    if !sameName table tableName then unknown
    else if e.value == .table then .ok acc
    else .error (Toml.located e.line e.path
      ("type mismatch for settings: expected table but found " ++ e.value.typeName))
  | [table, name] =>
    match sameName table tableName, items.find? fun item => sameName item.name name with
    | true, some item =>
      match item.take? e.value acc.1 with
      | some s => .ok (s, acc.2)
      | none => .error (Toml.located e.line e.path
          ("incompatible types: TOML value has type " ++ e.value.typeName ++
            "; destination has type " ++ item.kind))
    | _, _ => unknown
  | _ => unknown

/-- The settings of a file and the keys that are none. -/
def ofText (text : String) : Except String (Settings × List String) := do
  let entries ← Toml.read text
  entries.foldlM takeEntry ({}, [])

/-- Takes what the command line gives. -/
def withFlags (s : Settings) (l : CommandLine) : Settings where
  output := (l.value? "output").getD s.output
  map := (l.value? "map").getD s.map
  trace := (l.switch? "trace").getD s.trace
  dump := (l.switch? "dump-ast").getD s.dump
  logLevel := (l.value? "log-level").getD s.logLevel

end Settings

end RegAsm.Command
