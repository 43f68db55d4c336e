/-
RegAsm.Program.Source — reading a program from its text.
-/
import RegAsm.Program.Parser
import RegAsm.Token.Lexer

namespace RegAsm

/-- The statements of a source text. -/
def parse (source : String) : Except ParseError (List Statement) :=
  (Parser.ofTokens (tokenize source)).parse.1

end RegAsm
