/-
RegAsm.Token.Recognizer — how tokens are told apart.

A recognizer looks at the text ahead and answers with a token, whether it
accepts, and how many characters it went over.  It may go over characters and
still refuse; the lexer takes an answer only if it accepts and goes over at
least one character.

1. Blanks and comments, which the lexer passes over.
2. Tables: punctuation, registers and keywords.  Longer entries are tried
   before shorter ones, and entries of one length in table order.
3. Numbers.
4. Strings and names.
-/
import RegAsm.Source.Cursor
import RegAsm.Text.Blank
import RegAsm.Text.Digit
import RegAsm.Text.Letter
import RegAsm.Text.UpperCase
import RegAsm.Token.Basic
import RegAsm.Token.Literal

namespace RegAsm

open Source (Cursor)

/-- What a recognizer answers. -/
structure Attempt where
  token : Token
  accepted : Bool
  /-- How many characters it went over. -/
  taken : Nat

/-- An answer that accepts. -/
def Attempt.accept (token : Token) (taken : Nat) : Attempt := ⟨token, true, taken⟩

/-- An answer that refuses, after going over some characters. -/
def Attempt.refuse (taken : Nat) : Attempt := ⟨.absent, false, taken⟩

/-- A rule that reads one token from the text ahead. -/
abbrev Recognizer := List Char → Attempt

namespace Recognizer

/-- The token and the number of characters of an answer that counts: it
accepts and goes over at least one character. -/
def match? (r : Recognizer) (text : List Char) : Option (Token × Nat) :=
  let a := r text
  if a.accepted && 0 < a.taken && !text.isEmpty then some (a.token, a.taken) else none

/-- The first answer that counts. -/
def firstMatch? (rs : List Recognizer) (text : List Char) : Option (Token × Nat) :=
  rs.findSome? (match? · text)

/-- Reads one token at a cursor.  The cursor moves only if the answer counts. -/
def matchAt? (r : Recognizer) (c : Cursor Char) : Option (Token × Cursor Char) :=
  (r.match? c.rest).map fun (token, taken) => (token, c.advance taken)

/-! ## 1. Blanks and comments -/

/-- A run of white space. -/
def blank : Recognizer := fun text =>
  let run := text.takeWhile Text.isBlank
  ⟨{ kind := .whitespace, text := String.ofList run }, !run.isEmpty, run.length⟩

/-- From a leading character to the end of the line. -/
def comment (lead : Char) : Recognizer
  | [] => .refuse 0
  | c :: rest =>
    if c = lead then
      let run := (c :: rest).takeWhile (· ≠ '\n')
      .accept { kind := .whitespace, text := String.ofList run } run.length
    else .refuse 0

/-! ## 2. Tables -/

/-- Whether a character may stand in a name. -/
def isNameChar (c : Char) : Bool := Text.isLetter c || Text.isDecimalDigit c || c == '_'

/-- A table entry with its index. -/
structure Entry where
  text : List Char
  index : Nat
  deriving DecidableEq, Repr

/-- Puts an entry before the first one that is not longer. -/
def insertByLength (e : Entry) : List Entry → List Entry
  | [] => [e]
  | e' :: rest =>
    if e'.text.length ≤ e.text.length then e :: e' :: rest else e' :: insertByLength e rest

/-- The entries of a table, longest first, in table order within one length. -/
def byLength (names : List String) : List Entry :=
  (names.zipIdx.map fun (name, i) => ⟨name.toList, i⟩).foldr insertByLength []

/-- The text behind a spelling, if the text starts with it. -/
def behind? (same : Char → Char → Bool) : List Char → List Char → Option (List Char)
  | [], rest => some rest
  | _ :: _, [] => none
  | c :: spelling, x :: rest => if same x c then behind? same spelling rest else none

/-- Whether two characters are the same but for their case. -/
def sameFolded (a b : Char) : Bool := a == b || Text.upperCase a == Text.upperCase b

/-- Whether no name runs on into a text. -/
def endsName : List Char → Bool
  | [] => true
  | c :: _ => !isNameChar c

/-- The first entry that the text starts with; a bounded entry must not run on
into a name. -/
def entryAhead? (same : Char → Char → Bool) (bounded : Bool) (entries : List Entry)
    (text : List Char) : Option Entry :=
  entries.find? fun e =>
    match behind? same e.text text with
    | some rest => !bounded || endsName rest
    | none => false

/-- An entry of a sorted table as a token of one kind. -/
def ofEntries (kind : TokenKind) (same : Char → Char → Bool) (bounded : Bool)
    (entries : List Entry) : Recognizer := fun text =>
  match entryAhead? same bounded entries text with
  | some e => .accept { kind, text := String.ofList e.text, id := e.index } e.text.length
  | none => .refuse 0

/-- Punctuation, spelled exactly. -/
@[inline]
def symbols (names : List String) : Recognizer :=
  ofEntries .symbol (· == ·) false (byLength names)

/-- Register names, spelled exactly and not run on into a name. -/
@[inline]
def registers (names : List String) : Recognizer :=
  ofEntries .register (· == ·) true (byLength names)

/-- Keywords, in any case and not run on into a name. -/
@[inline]
def keywords (names : List String) : Recognizer :=
  ofEntries .mnemonic sameFolded true (byLength names)

/-! ## 3. Numbers -/

/-- Whether a character is one of the ten plain digits. -/
def isPlainDigit (c : Char) : Bool := '0' ≤ c && c ≤ '9'

/-- The value of a digit up to fifteen. -/
def digitValue? (c : Char) : Option Nat :=
  if '0' ≤ c ∧ c ≤ '9' then some (c.toNat - '0'.toNat)
  else if 'a' ≤ c ∧ c ≤ 'f' then some (c.toNat - 'a'.toNat + 10)
  else if 'A' ≤ c ∧ c ≤ 'F' then some (c.toNat - 'A'.toNat + 10)
  else none

/-- Whether a character is a digit of a base. -/
def isDigitOf (base : Nat) (c : Char) : Bool :=
  match digitValue? c with
  | some d => d < base
  | none => false

/-- The largest value of a number literal. -/
def maxValue : UInt64 := 0xFFFFFFFF

/-- Takes one more digit into a value.  A value past the largest one stays as
it is, so the 64 bits never overflow. -/
def takeDigit (base : UInt64) (v : UInt64) (c : Char) : UInt64 :=
  if v ≤ maxValue then v * base + UInt64.ofNat ((digitValue? c).getD 0) else v

/-- A run of digits behind a lead.  A value that needs more than 32 bits makes
an illegal token of the same text. -/
def digits (base : Nat) (lead : List Char) : Recognizer := fun text =>
  let run := text.takeWhile (isDigitOf base)
  let v := run.foldl (takeDigit (UInt64.ofNat base)) 0
  let spelling := String.ofList (lead ++ run)
  if run.isEmpty then .refuse lead.length
  else if maxValue < v then
    .accept { kind := .illegal, text := spelling } (lead.length + run.length)
  else
    .accept { kind := .number, text := spelling, value := v.toUInt32 } (lead.length + run.length)

/-- The token of a character literal. -/
def characterToken (c : Char) : Token :=
  { kind := .number, text := String.ofList ('\'' :: Token.escapeChar c ++ ['\'']),
    value := c.val }

/-- Closes a character literal behind its character. -/
def closeCharacter (c : Char) (taken : Nat) : Recognizer
  | [] => .refuse taken
  | q :: _ => if q = '\'' then .accept (characterToken c) (taken + 1) else .refuse (taken + 1)

/-- A character literal behind its opening quote. -/
def character : Recognizer
  | [] => .refuse 1
  | '\'' :: _ => .refuse 2
  | '\n' :: _ => .refuse 2
  | '\\' :: [] => .refuse 2
  | '\\' :: e :: rest =>
    match Token.unescape? e with
    | some c => closeCharacter c 3 rest
    | none => .refuse 3
  | c :: rest => closeCharacter c 2 rest

/-- A number: `$` and hexadecimal digits, decimal digits, or a character
between single quotes. -/
def number : Recognizer
  | [] => .refuse 0
  | c :: rest =>
    if c = '$' then digits 16 ['$'] rest
    else if isPlainDigit c then digits 10 [] (c :: rest)
    else if c = '\'' then character rest
    else .refuse 0

/-! ## 4. Strings and names -/

/-- The contents of a string literal up to its closing quote; `done` holds the
characters so far, the last one first. -/
def stringBody (done : List Char) (taken : Nat) : Recognizer
  | [] => .refuse taken
  | '"' :: _ => .accept { kind := .string, text := String.ofList done.reverse } (taken + 1)
  | '\n' :: _ => .refuse (taken + 1)
  | '\\' :: [] => .refuse (taken + 1)
  | '\\' :: e :: rest =>
    match Token.unescape? e with
    | some c => stringBody (c :: done) (taken + 2) rest
    | none => .refuse (taken + 2)
  | c :: rest => stringBody (c :: done) (taken + 1) rest

/-- A string literal; the token holds its contents. -/
def string : Recognizer
  | '"' :: rest => stringBody [] 1 rest
  | _ => .refuse 0

/-- A name: a letter or underscore, then letters, digits and underscores. -/
def identifier : Recognizer
  | [] => .refuse 0
  | c :: rest =>
    if Text.isLetter c || c == '_' then
      let run := (c :: rest).takeWhile isNameChar
      .accept { kind := .identifier, text := String.ofList run } run.length
    else .refuse 0

end Recognizer

end RegAsm
