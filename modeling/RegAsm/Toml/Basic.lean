/-
RegAsm.Toml.Basic — the entries of a settings file, and why a text has none.

A settings file is a list of entries in the order of the file.  An entry is a
value under a key, or the heading of a table.  A key is a path of names.
-/
import RegAsm.Text.Quoted

namespace RegAsm.Toml

/-- The values of a file, as far as they matter here. -/
inductive Value where
  | string (s : String)
  | integer
  | float
  | boolean (b : Bool)
  | datetime
  | array
  | table
  deriving DecidableEq, Repr

/-- The name of a kind of value. -/
def Value.typeName : Value → String
  | .string _ => "string"
  | .integer => "int64"
  | .float => "float64"
  | .boolean _ => "bool"
  | .datetime => "time.Time"
  | .array => "[]interface \x7b\x7d"
  | .table => "map[string]interface \x7b\x7d"

/-- A value or a heading, with its path and line. -/
structure Entry where
  path : List String
  line : Nat
  value : Value
  /-- Whether the entry may come again. -/
  isRepeatable : Bool := false
  deriving DecidableEq, Repr

/-- Whether a character can stand in a name without quotes. -/
def isBareChar (c : Char) : Bool := c.isAlphanum || c == '_' || c == '-'

/-- One character of a quoted name. -/
def quotedNameChar (c : Char) : List Char :=
  match c with
  | '"' => ['\\', '"']
  | '\\' => ['\\', '\\']
  | '\x08' => ['\\', 'b']
  | '\x0c' => ['\\', 'f']
  | '\n' => ['\\', 'n']
  | '\r' => ['\\', 'r']
  | '\t' => ['\\', 't']
  | c => if c.toNat < 0x20 || c.toNat == 0x7F then '\\' :: 'u' :: Text.hexLower 4 c.toNat else [c]

/-- A name of a path, in quotes if it needs them. -/
def showName (name : String) : String :=
  let chars := name.toList
  if !chars.isEmpty && chars.all isBareChar then name
  else String.ofList ('"' :: chars.flatMap quotedNameChar ++ ['"'])

/-- A path as it is written. -/
def showPath (path : List String) : String := ".".intercalate (path.map showName)

/-- What is wrong with a text. -/
inductive Problem where
  | tableName (found : Char)
  | keyStart (found : Char)
  | keyEnd (found : Char)
  | itemEnd (found : Char)
  | arrayEnd (found : Char)
  | inlineEnd (found : Char)
  | badValue (text : String)
  | newlineInString
  | badEscape (found : Char)
  | controlCharacter
  | unexpectedEnd
  | repeatedKey (path : List String)
  deriving DecidableEq, Repr

/-- The wording of a problem. -/
def Problem.message : Problem → String
  | .tableName c =>
    "expected '.' or ']' to end table name, but got " ++ Text.quotedSingle c ++ " instead"
  | .keyStart c => "expected a key but found " ++ Text.quotedSingle c
  | .keyEnd c => "expected '.' or '=', but got " ++ Text.quotedSingle c ++ " instead"
  | .itemEnd c =>
    "expected a top-level item to end with a newline, comment, or EOF, but got " ++
      Text.quotedSingle c ++ " instead"
  | .arrayEnd c =>
    "expected a comma (',') or array terminator (']'), but got " ++ Text.quotedSingle c
  | .inlineEnd c =>
    "expected a comma or an inline table terminator '\x7d', but got " ++ Text.quotedSingle c ++
      " instead"
  | .badValue text => "expected value but found " ++ Text.quoted text ++ " instead"
  | .newlineInString => "strings cannot contain newlines"
  | .badEscape c => "invalid escape character " ++ Text.quotedSingle c
  | .controlCharacter => "control characters are not allowed inside strings"
  | .unexpectedEnd => "unexpected EOF"
  | .repeatedKey path => "Key '" ++ showPath path ++ "' has already been defined."

/-- An error in a settings file, with the key it was met at. -/
def located (line : Nat) (lastKey : List String) (message : String) : String :=
  let key := if lastKey.isEmpty then "" else " (last key " ++ Text.quoted (showPath lastKey) ++ ")"
  "toml: line " ++ toString line ++ key ++ ": " ++ message

end RegAsm.Toml
