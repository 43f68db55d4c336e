/-
RegAsm.Token.Stream — the parser's view of the tokens.

A token stream always ends with an end token.  Past the end it goes on showing
that token, so there is a token to look at wherever the cursor stands.
-/
import RegAsm.Machine.Mnemonic
import RegAsm.Source.Cursor
import RegAsm.Token.Basic

namespace RegAsm

open Machine
open Source (Cursor Position)

/-- Tokens with a cursor over them. -/
structure TokenStream where
  cursor : Cursor Token
  /-- The token shown past the end. -/
  eof : Token

namespace TokenStream

/-- A stream of tokens.  An end token is added where the last token was,
unless the tokens already end with one. -/
def ofTokens (tokens : List Token) : TokenStream :=
  match tokens.getLast? with
  | none =>
    let eof : Token := { kind := .eof }
    ⟨.ofList [eof] (fun _ => false), eof⟩
  | some last =>
    if last.kind = .eof then ⟨.ofList tokens (fun _ => false), last⟩
    else
      let eof : Token := { kind := .eof, pos := last.pos }
      ⟨.ofList (tokens ++ [eof]) (fun _ => false), eof⟩

/-- The token under the cursor. -/
def token (s : TokenStream) : Token := s.cursor.current?.getD s.eof

/-- The stream past the token under the cursor. -/
def advance (n : Nat) (s : TokenStream) : TokenStream := { s with cursor := s.cursor.advance n }

/-- The token under the cursor and the stream past it, if the token is of a
kind.  The end token is never taken. -/
def take? (kind : TokenKind) (s : TokenStream) : Option (Token × TokenStream) :=
  if s.token.kind = kind ∧ kind ≠ .eof then some (s.token, s.advance 1) else none

/-- The stream past a punctuation mark, if it stands under the cursor. -/
def symbol? (text : String) (s : TokenStream) : Option TokenStream :=
  if s.token.kind = .symbol ∧ s.token.text = text then some (s.advance 1) else none

/-- The first of some keywords that stands under the cursor, and the stream
past it. -/
def mnemonic? (ms : List Mnemonic) (s : TokenStream) : Option (Mnemonic × TokenStream) :=
  if s.token.kind = .mnemonic then
    (ms.find? fun m => s.token.id = m.index).map fun m => (m, s.advance 1)
  else none

end TokenStream

end RegAsm
