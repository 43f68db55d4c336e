/-
RegAsm.Command.Flags — the words of a command line.

A flag is given by its name after two dashes or by its letter after one.  Its
value follows an equals sign or is the next word; a switch needs none.  Flags and
arguments may be mixed, and two dashes alone end the flags.
-/
import RegAsm.Text.Quoted
import RegAsm.Text.Utf8

namespace RegAsm.Command

/-- A flag that a command knows. -/
structure Flag where
  name : String
  letter : Option Char := none
  isSwitch : Bool := false
  deriving DecidableEq, Repr

/-- The words of a command line, sorted out.  Values are in the order given. -/
structure CommandLine where
  values : List (String × String) := []
  arguments : List String := []
  deriving DecidableEq, Repr

/-- What is wrong with a command line. -/
inductive FlagError where
  | badForm (word : String)
  | unknown (name : String)
  | unknownLetter (letter : Char) (letters : String)
  | missingValue (word : String)
  | missingLetterValue (letter : Char) (letters : String)
  | badSwitch (value name : String)
  | argumentCount (low high given : Nat)
  deriving DecidableEq, Repr

/-- The wording of the error. -/
def FlagError.message : FlagError → String
  | .badForm word => "bad flag syntax: " ++ word
  | .unknown name => "unknown flag: --" ++ name
  | .unknownLetter letter letters =>
    "unknown shorthand flag: " ++ Text.quotedSingle letter ++ " in -" ++ letters
  | .missingValue word => "flag needs an argument: " ++ word
  | .missingLetterValue letter letters =>
    "flag needs an argument: " ++ Text.quotedSingle letter ++ " in -" ++ letters
  | .badSwitch value name =>
    "invalid argument " ++ Text.quoted value ++ " for " ++ Text.quoted ("--" ++ name) ++
      " flag: strconv.ParseBool: parsing " ++ Text.quoted value ++ ": invalid syntax"
  | .argumentCount low high given =>
    if low = high then s!"accepts {low} arg(s), received {given}"
    else s!"accepts between {low} and {high} arg(s), received {given}"

/-- The truth value that a word stands for. -/
def truth? (s : String) : Option Bool :=
  if ["1", "t", "T", "TRUE", "true", "True"].contains s then some true
  else if ["0", "f", "F", "FALSE", "false", "False"].contains s then some false
  else none

namespace CommandLine

/-- The last value of a flag. -/
def value? (l : CommandLine) (name : String) : Option String :=
  (l.values.reverse.find? (·.1 == name)).map (·.2)

/-- The last value of a switch. -/
def switch? (l : CommandLine) (name : String) : Option Bool := (l.value? name).bind truth?

/-- Takes the value of a flag. -/
def set (l : CommandLine) (flag : Flag) (value : String) : Except FlagError CommandLine :=
  if flag.isSwitch && (truth? value).isNone then .error (.badSwitch value flag.name)
  else .ok { l with values := l.values ++ [(flag.name, value)] }

/-- The first character of a text read byte by byte. -/
def firstByte (text : List Char) : Char :=
  match Text.encode (String.ofList (text.take 1)) with
  | b :: _ => Char.ofNat b.toNat
  | [] => '\x00'

/-- Sorts out the words of a command line. -/
def read (flags : List Flag) (l : CommandLine) : List String → Except FlagError CommandLine
  | [] => .ok l
  | word :: rest =>
    match word.toList with
    | ['-', '-'] => .ok { l with arguments := l.arguments ++ rest }
    | '-' :: '-' :: text =>
      if text.head? == some '-' || text.head? == some '=' then .error (.badForm word)
      else
        let name := String.ofList (text.takeWhile (· != '='))
        match flags.find? (·.name == name) with
        | none => .error (.unknown name)
        | some flag =>
          match text.dropWhile (· != '='), flag.isSwitch, rest with
          | _ :: value, _, rest => do read flags (← l.set flag (String.ofList value)) rest
          | [], true, rest => do read flags (← l.set flag "true") rest
          | [], false, value :: rest => do read flags (← l.set flag value) rest
          | [], false, [] => .error (.missingValue word)
    | '-' :: c :: text =>
      let letters := String.ofList (c :: text)
      match flags.find? (·.letter == some c) with
      | none => .error (.unknownLetter (firstByte (c :: text)) letters)
      | some flag =>
        match text, rest with
        | '=' :: d :: value, rest => do
          read flags (← l.set flag (String.ofList (d :: value))) rest
        | d :: value, rest => do read flags (← l.set flag (String.ofList (d :: value))) rest
        | [], value :: rest => do read flags (← l.set flag value) rest
        | [], [] => .error (.missingLetterValue c letters)
    | _ => read flags { l with arguments := l.arguments ++ [word] } rest

/-- Sorts out the words of a command line that takes a number of arguments. -/
def ofWords (flags : List Flag) (low high : Nat) (words : List String) :
    Except FlagError CommandLine := do
  let l ← read flags {} words
  let given := l.arguments.length
  if low ≤ given ∧ given ≤ high then .ok l else .error (.argumentCount low high given)

end CommandLine

end RegAsm.Command
