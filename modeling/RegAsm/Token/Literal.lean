/-
RegAsm.Token.Literal — escapes inside string and character literals.

A backslash and a letter stand for a line feed, a backspace, a carriage return
or a tab; a backslash also makes a quote or a backslash an ordinary character.
Nothing else may follow a backslash.
-/

namespace RegAsm.Token

/-- The character that a backslash and a character stand for. -/
def unescape? : Char → Option Char
  | 'n' => some '\n'
  | 'b' => some '\x08'
  | 'r' => some '\r'
  | 't' => some '\t'
  | '"' => some '"'
  | '\'' => some '\''
  | '\\' => some '\\'
  | _ => none

/-- A character as a literal spells it. -/
def escapeChar (c : Char) : List Char :=
  if c = '\n' then ['\\', 'n']
  else if c = '\x08' then ['\\', 'b']
  else if c = '\r' then ['\\', 'r']
  else if c = '\t' then ['\\', 't']
  else if c = '"' ∨ c = '\'' ∨ c = '\\' then ['\\', c]
  else [c]

/-- A text as a literal spells it between its quotes. -/
def escape (text : List Char) : List Char := text.flatMap escapeChar

/-- A text as a string literal. -/
def quote (s : String) : String := String.ofList ('"' :: escape s.toList ++ ['"'])

end RegAsm.Token
