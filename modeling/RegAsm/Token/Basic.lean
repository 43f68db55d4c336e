/-
RegAsm.Token.Basic — tokens, the words of a source text.
-/
import RegAsm.Source.Position
import RegAsm.Text.Quoted

namespace RegAsm

open Source (Position)

/-- What a token is. -/
inductive TokenKind where
  /-- Text that belongs to no other kind. -/
  | illegal
  /-- The end of the text. -/
  | eof
  /-- Blanks and comments. -/
  | whitespace
  /-- Punctuation. -/
  | symbol
  /-- A number or a character literal. -/
  | number
  /-- A name that the program chose. -/
  | identifier
  /-- The name of a register. -/
  | register
  /-- A keyword. -/
  | mnemonic
  /-- A string literal. -/
  | string
  /-- A number that stands for no kind. -/
  | other (n : Int)
  deriving DecidableEq, Repr, Inhabited

namespace TokenKind

/-- The kind with a given number. -/
def ofNumber : Int → TokenKind
  | 0 => .illegal
  | 1 => .eof
  | 2 => .whitespace
  | 3 => .symbol
  | 4 => .number
  | 5 => .identifier
  | 6 => .register
  | 7 => .mnemonic
  | 8 => .string
  | n => .other n

/-- The name of a kind. -/
def name : TokenKind → String
  | .illegal => "Illegal"
  | .eof => "EOF"
  | .whitespace => "Whitespace"
  | .symbol => "Symbol"
  | .number => "Number"
  | .identifier => "Identifier"
  | .register => "Register"
  | .mnemonic => "Mnemonic"
  | .string => "String"
  | .other n => s!"Kind({n})"

end TokenKind

/-- One word of a source text. -/
structure Token where
  kind : TokenKind
  /-- The source text, the contents of a string literal, or the table's
  spelling of a keyword. -/
  text : String := ""
  /-- The value of a number. -/
  value : UInt32 := 0
  /-- The table index of a symbol, register or keyword. -/
  id : Int := 0
  /-- Where the token starts. -/
  pos : Position := .nowhere
  deriving DecidableEq, Repr, Inhabited

namespace Token

/-- The token of a failed match. -/
def absent : Token := { kind := .illegal }

/-- Whether two tokens have the same text. -/
def sameText (a b : Token) : Bool := a.text == b.text

/-- The token as messages name it. -/
def describe (t : Token) : String :=
  match t.kind with
  | .eof => "end of input"
  | kind => kind.name ++ " " ++ Text.quoted t.text

end Token

end RegAsm
