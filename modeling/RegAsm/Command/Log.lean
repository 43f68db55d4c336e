/-
RegAsm.Command.Log — log lines and their levels.

A line shows its level, its message and its fields in the order of their names.
A text that holds more than plain characters is quoted.
-/
import RegAsm.Text.Quoted

namespace RegAsm.Command

/-- How grave a log line is, the gravest first. -/
inductive LogLevel where
  | panic
  | fatal
  | error
  | warning
  | info
  | debug
  | trace
  deriving DecidableEq, Repr

namespace LogLevel

/-- The rank of a level; graver levels rank lower. -/
def rank : LogLevel → Nat
  | .panic => 0
  | .fatal => 1
  | .error => 2
  | .warning => 3
  | .info => 4
  | .debug => 5
  | .trace => 6

/-- The level's name in a log line. -/
def name : LogLevel → String
  | .panic => "panic"
  | .fatal => "fatal"
  | .error => "error"
  | .warning => "warning"
  | .info => "info"
  | .debug => "debug"
  | .trace => "trace"

/-- A plain letter in lower case.  One other letter has a plain one for its
lower case. -/
def lowerLetter (c : Char) : Char := if c.toNat = 0x130 then 'i' else c.toLower

/-- The level of a name in letters of any case. -/
def ofName? (s : String) : Option LogLevel :=
  match String.ofList (s.toList.map lowerLetter) with
  | "panic" => some .panic
  | "fatal" => some .fatal
  | "error" => some .error
  | "warn" => some .warning
  | "warning" => some .warning
  | "info" => some .info
  | "debug" => some .debug
  | "trace" => some .trace
  | _ => none

/-- The complaint about a name without a level. -/
def unknownMessage (s : String) : String := "not a valid logrus Level: " ++ Text.quoted s

/-- Whether lines of a level are shown. -/
def admits (threshold level : LogLevel) : Bool := level.rank ≤ threshold.rank

end LogLevel

/-- One log line. -/
structure LogLine where
  level : LogLevel
  message : String
  fields : List (String × String) := []
  deriving DecidableEq, Repr

/-- Whether a character can stand in a log line without quotes. -/
def isLogPlain (c : Char) : Bool := c.isAlphanum || "-._/@^+".toList.contains c

/-- A text of a log line. -/
def logText (s : String) : String := if s.toList.all isLogPlain then s else Text.quoted s

/-- Puts a field in its place by name. -/
def insertField (f : String × String) : List (String × String) → List (String × String)
  | [] => [f]
  | g :: rest => if f.1 < g.1 then f :: g :: rest else g :: insertField f rest

/-- The text of a log line. -/
def LogLine.render (l : LogLine) : String :=
  let fields := l.fields.foldr insertField []
  "level=" ++ l.level.name ++ " msg=" ++ logText l.message ++
    String.join (fields.map fun (name, text) => " " ++ name ++ "=" ++ logText text) ++ "\n"

end RegAsm.Command
