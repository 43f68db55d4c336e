/-
RegAsm.Token.Lexer — turning text into tokens.

The lexer asks its recognizers in order and takes the first answer that
counts.  White space is always asked for first and passed over.  A character
that nobody takes is an illegal token of its own, so every text can be read to
its end.
-/
import RegAsm.Machine.Mnemonic
import RegAsm.Machine.Register
import RegAsm.Token.Recognizer

namespace RegAsm

open Source (Cursor)

/-- A lexer in the middle of its text. -/
structure Lexer where
  cursor : Cursor Char
  recognizers : List Recognizer
  /-- Whether the end of the text has been reported. -/
  done : Bool := false

namespace Lexer

/-- A lexer at the front of a text. -/
def ofText (text : List Char) (recognizers : List Recognizer) : Lexer :=
  { cursor := .ofText text, recognizers := .blank :: recognizers }

/-- The number of characters that blanks and comments take at the front of a
text.  `count` characters are behind, and `skip` more belong to the last one. -/
def blankLength (rs : List Recognizer) (count skip : Nat) : List Char → Nat
  | [] => count
  | c :: rest =>
    match skip with
    | k + 1 => blankLength rs (count + 1) k rest
    | 0 =>
      match Recognizer.firstMatch? rs (c :: rest) with
      | some (token, taken) =>
        if token.kind = .whitespace then blankLength rs (count + 1) (taken - 1) rest else count
      | none => count

/-- The next token that is not white space.  At the end of the text it is the
end token, again and again. -/
def next (l : Lexer) : Token × Lexer :=
  let start := l.cursor.advance (blankLength l.recognizers 0 0 l.cursor.rest)
  match start.rest with
  | [] => ({ kind := .eof, pos := start.pos }, { l with cursor := start, done := true })
  | c :: _ =>
    match Recognizer.firstMatch? l.recognizers start.rest with
    | some (token, taken) =>
      ({ token with pos := start.pos }, { l with cursor := start.advance taken })
    | none =>
      ({ kind := .illegal, text := String.singleton c, pos := start.pos },
        { l with cursor := start.advance 1 })

/-- Adds up to `n` tokens to those already read and stops behind the end
token. -/
def takeOnto (tokens : Array Token) : Nat → Lexer → Array Token × Lexer
  | 0, l => (tokens, l)
  | n + 1, l =>
    if l.done then (tokens, l)
    else
      let (token, l) := l.next
      takeOnto (tokens.push token) n l

/-- Up to `n` tokens, ending with the end token if it is reached. -/
def take (n : Nat) (l : Lexer) : List Token × Lexer :=
  let (tokens, l) := takeOnto #[] n l
  (tokens.toList, l)

/-- The tokens that are left, ending with the end token.  Each of them but the
end token covers a character, which bounds their number. -/
def all (l : Lexer) : List Token × Lexer := l.take (l.cursor.rest.length + 1)

/-! ## The assembly language -/

/-- The recognizers of the assembly language. -/
def language : List Recognizer :=
  [.comment ';', .symbols [",", "(", ")", ".", ":"], .number,
   .registers Machine.Register.names, .keywords Machine.Mnemonic.names,
   .string, .identifier]

/-- A lexer for an assembly source. -/
def ofSource (source : String) : Lexer := .ofText source.toList language

end Lexer

/-- The tokens of an assembly source, ending with the end token. -/
def tokenize (source : String) : List Token := (Lexer.ofSource source).all.1

end RegAsm
