/-
RegAsm.Yaml.Quoted — reading plain and quoted scalars.

A scalar may go on over several lines.  A line end inside it becomes a space,
and each empty line after it a line end.  Blanks around line ends are dropped.
-/
import RegAsm.Yaml.Input

namespace RegAsm.Yaml

/-! ## 1. Lines that are joined -/

/-- A scalar as far as it was read, its characters in reverse. -/
structure Fold where
  done : List Char := []
  /-- Blanks since the last character. -/
  blanks : List Char := []
  /-- The first line end since the last character, empty if it was escaped. -/
  lead : Option (List Char) := none
  /-- The line ends after the first one. -/
  trail : List Char := []

namespace Fold

/-- Takes over the blanks or line ends since the last character. -/
def join (f : Fold) : List Char :=
  match f.lead with
  | none => f.blanks ++ f.done
  | some ['\n'] => if f.trail.isEmpty then ' ' :: f.done else f.trail ++ f.done
  | some lead => f.trail ++ lead ++ f.done

/-- Takes a character. -/
def push (f : Fold) (c : Char) : Fold := { done := c :: f.join }

/-- Takes a blank.  At the start of a line it is dropped. -/
def pushBlank (f : Fold) (c : Char) : Fold :=
  if f.lead.isSome then f else { f with blanks := c :: f.blanks }

/-- Takes a line end. -/
def pushBreak (f : Fold) (c : Char) : Fold :=
  if f.lead.isSome then { f with trail := c :: f.trail }
  else { f with blanks := [], lead := some [c] }

/-- Takes a line end after a backslash. -/
def escapeBreak (f : Fold) : Fold := { done := f.join, lead := some [] }

/-- Whether blanks or line ends came since the last character. -/
def afterSpace (f : Fold) : Bool := f.lead.isSome || !f.blanks.isEmpty

end Fold

/-! ## 2. Single quotes -/

/-- A scalar after its opening single quote. -/
def singleFrom (i : Input) (f : Fold) (line column : Nat) :
    List Char → Except Malformed (String × Input)
  | [] => .error { problem := .unexpectedEnd, line := line + 1 }
  | '\'' :: '\'' :: rest => singleFrom i (f.push '\'') line (column + 2) rest
  | c :: rest =>
    if column == 0 && isBorder (c :: rest) then .error { problem := .innerBorder, line := line + 1 }
    else if c == '\'' then
      .ok (String.ofList f.join.reverse,
        { i with rest, line, column := column + 1, keyAllowed := false })
    else if isBreak c then singleFrom i (f.pushBreak c) (line + 1) 0 rest
    else if isBlank c then singleFrom i (f.pushBlank c) line (column + 1) rest
    else singleFrom i (f.push c) line (column + 1) rest

/-! ## 3. Double quotes -/

/-- What the next character between double quotes belongs to. -/
inductive Escape where
  | none
  | started
  /-- A character given by number, with the digits still to come. -/
  | number (left value : Nat)

/-- The character for a letter after a backslash. -/
def escaped? : Char → Option Nat
  | '0' => some 0x00
  | 'a' => some 0x07
  | 'b' => some 0x08
  | 't' => some 0x09
  | '\t' => some 0x09
  | 'n' => some 0x0A
  | 'v' => some 0x0B
  | 'f' => some 0x0C
  | 'r' => some 0x0D
  | 'e' => some 0x1B
  | ' ' => some 0x20
  | '"' => some 0x22
  | '\'' => some 0x27
  | '/' => some 0x2F
  | '\\' => some 0x5C
  | 'N' => some 0x85
  | '_' => some 0xA0
  | 'L' => some 0x2028
  | 'P' => some 0x2029
  | _ => none

/-- How many digits follow a letter after a backslash. -/
def escapeDigits? : Char → Option Nat
  | 'x' => some 2
  | 'u' => some 4
  | 'U' => some 8
  | _ => none

/-- Whether a number is that of a character. -/
def isCodePoint (n : Nat) : Bool := n < 0xD800 || (0xDFFF < n && n ≤ 0x10FFFF)

/-- A scalar after its opening double quote. -/
def doubleFrom (i : Input) (e : Escape) (f : Fold) (line column : Nat) :
    List Char → Except Malformed (String × Input)
  | [] => .error { problem := .unexpectedEnd, line := line + 1 }
  | c :: rest =>
    match e with
    | .number left value =>
      match hexDigit? c with
      | Option.none => .error { problem := .badNumberEscape, line := line + 1 }
      | some d =>
        let value := 16 * value + d
        if 1 < left then doubleFrom i (.number (left - 1) value) f line (column + 1) rest
        else if isCodePoint value then
          doubleFrom i .none (f.push (Char.ofNat value)) line (column + 1) rest
        else .error { problem := .badCodePoint, line := line + 1 }
    | .started =>
      if isBreak c then doubleFrom i .none f.escapeBreak (line + 1) 0 rest
      else match escaped? c, escapeDigits? c with
        | some n, _ => doubleFrom i .none (f.push (Char.ofNat n)) line (column + 1) rest
        | Option.none, some digits => doubleFrom i (.number digits 0) f line (column + 1) rest
        | Option.none, Option.none => .error { problem := .unknownEscape, line := line + 1 }
    | .none =>
      if column == 0 && isBorder (c :: rest) then
        .error { problem := .innerBorder, line := line + 1 }
      else if c == '"' then
        .ok (String.ofList f.join.reverse,
          { i with rest, line, column := column + 1, keyAllowed := false })
      else if c == '\\' then doubleFrom i .started f line (column + 1) rest
      else if isBreak c then doubleFrom i .none (f.pushBreak c) (line + 1) 0 rest
      else if isBlank c then doubleFrom i .none (f.pushBlank c) line (column + 1) rest
      else doubleFrom i .none (f.push c) line (column + 1) rest

/-! ## 4. No quotes -/

/-- Whether a plain scalar can start here. -/
def startsPlain (inFlow : Bool) : List Char → Bool
  | [] => false
  | c :: rest =>
    if c == '-' then !spaceOrEnd rest
    else if c == '?' || c == ':' then !inFlow && !spaceOrEnd rest
    else !isBlank c && !isBreak c && !"#,[]\x7b\x7d&*!|>'\"%@`".toList.contains c

/-- Whether a mark that ends a plain scalar stands here. -/
def endsPlain (inFlow : Bool) : List Char → Bool
  | [] => true
  | c :: rest =>
    (c == ':' && spaceOrEnd rest) || (inFlow && ",?[]\x7b\x7d".toList.contains c)

/-- A plain scalar.  In a block it ends before a line that is indented less than
`indent`. -/
def plainFrom (inFlow : Bool) (indent : Nat) (i : Input) (f : Fold) (line column : Nat) :
    List Char → Except Malformed (String × Input)
  | [] => .ok (String.ofList f.done.reverse,
      { i with rest := [], line, column, keyAllowed := f.lead.isSome })
  | c :: rest =>
    if isBreak c then plainFrom inFlow indent i (f.pushBreak c) (line + 1) 0 rest
    else if isBlank c then
      if f.lead.isSome && column < indent && c == '\t' then
        .error { problem := .tabIndentation, line := line + 1 }
      else plainFrom inFlow indent i (f.pushBlank c) line (column + 1) rest
    else if (f.afterSpace && ((!inFlow && column < indent) ||
        (column == 0 && isBorder (c :: rest)) || c == '#')) || endsPlain inFlow (c :: rest) then
      .ok (String.ofList f.done.reverse,
        { i with rest := c :: rest, line, column, keyAllowed := f.lead.isSome })
    else plainFrom inFlow indent i (f.push c) line (column + 1) rest

/-- Reads a plain scalar. -/
def plain (inFlow : Bool) (indent : Nat) (i : Input) : Except Malformed (String × Input) :=
  plainFrom inFlow indent i {} i.line i.column i.rest

/-- Reads the rest of a single-quoted scalar. -/
def singleQuoted (i : Input) : Except Malformed (String × Input) :=
  singleFrom i {} i.line i.column i.rest

/-- Reads the rest of a double-quoted scalar. -/
def doubleQuoted (i : Input) : Except Malformed (String × Input) :=
  doubleFrom i .none {} i.line i.column i.rest

end RegAsm.Yaml
