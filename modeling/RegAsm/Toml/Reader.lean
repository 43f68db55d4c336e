/-
RegAsm.Toml.Reader — reading a settings file.

The readers share a bound on the number of their steps, which `read` computes
from the length of the text.
-/
import RegAsm.Toml.Basic

namespace RegAsm.Toml

/-- The text still to be read, and its line. -/
structure Input where
  rest : List Char
  line : Nat := 1
  deriving Inhabited

/-- A problem and the line it was met on. -/
structure Malformed where
  problem : Problem
  line : Nat
  deriving DecidableEq, Repr

namespace Input

/-- Fails at this place.  A line end that is in the way counts as read. -/
def fail {α : Type} (i : Input) (p : Problem) : Except Malformed α :=
  .error { problem := p, line := if i.rest.head? == some '\n' then i.line + 1 else i.line }

/-- Moves past characters. -/
def drop (i : Input) (n : Nat) : Input :=
  { rest := i.rest.drop n, line := i.line + (i.rest.take n).count '\n' }

/-- Skips spaces and tabs. -/
def skipBlanks (i : Input) : Input :=
  { i with rest := i.rest.dropWhile fun c => c == ' ' || c == '\t' }

/-- Skips a comment, if one stands here. -/
def skipComment (i : Input) : Input :=
  if i.rest.head? == some '#' then { i with rest := i.rest.dropWhile (· != '\n') } else i

/-- The next character, or the one that stands for the end. -/
def peek (i : Input) : Char := i.rest.headD '\x00'

/-- The skipping of blanks, line ends and comments. -/
def skipFrom (comment : Bool) (line : Nat) : List Char → Input
  | [] => { rest := [], line }
  | c :: rest =>
    if c == '\n' then skipFrom false (line + 1) rest
    else if comment || c == ' ' || c == '\t' || c == '\r' then skipFrom comment line rest
    else if c == '#' then skipFrom true line rest
    else { rest := c :: rest, line }

/-- Moves to the next thing that is neither blank nor comment. -/
def skip (i : Input) : Input := skipFrom false i.line i.rest

end Input

/-! ## 1. Strings -/

/-- The value of a hexadecimal digit. -/
def hexDigit? (c : Char) : Option Nat :=
  if '0' ≤ c ∧ c ≤ '9' then some (c.toNat - '0'.toNat)
  else if 'a' ≤ c ∧ c ≤ 'f' then some (c.toNat - 'a'.toNat + 10)
  else if 'A' ≤ c ∧ c ≤ 'F' then some (c.toNat - 'A'.toNat + 10)
  else none

/-- What the next character of a string belongs to. -/
inductive Escape where
  | none
  | started
  /-- A character given by number, with the digits still to come. -/
  | number (left value : Nat)
  /-- Blanks after a line end that was escaped. -/
  | gap

/-- The character for a letter after a backslash. -/
def escaped? : Char → Option Char
  | 'b' => some '\x08'
  | 't' => some '\t'
  | 'n' => some '\n'
  | 'f' => some '\x0c'
  | 'r' => some '\r'
  | '"' => some '"'
  | '\\' => some '\\'
  | _ => none

/-- A string with escapes after its quotes. -/
def basicFrom (isLong : Bool) (e : Escape) (done : List Char) (line : Nat) :
    List Char → Except Malformed (String × Input)
  | [] => .error { problem := .unexpectedEnd, line }
  | '"' :: '"' :: '"' :: rest =>
    match isLong, e with
    | true, .started => basicFrom isLong .none ('"' :: done) line ('"' :: '"' :: rest)
    | true, _ => .ok (String.ofList done.reverse, { rest, line })
    | false, .started => basicFrom isLong .none ('"' :: done) line ('"' :: '"' :: rest)
    | false, _ => .ok (String.ofList done.reverse, { rest := '"' :: '"' :: rest, line })
  | c :: rest =>
    let next := if c == '\n' then line + 1 else line
    match e with
    | .number left value =>
      match hexDigit? c with
      | Option.none => .error { problem := .badEscape c, line }
      | some d =>
        let value := 16 * value + d
        if 1 < left then basicFrom isLong (.number (left - 1) value) done line rest
        else basicFrom isLong .none (Char.ofNat value :: done) line rest
    | .started =>
      match escaped? c with
      | some d => basicFrom isLong .none (d :: done) line rest
      | Option.none =>
        if c == 'u' then basicFrom isLong (.number 4 0) done line rest
        else if c == 'U' then basicFrom isLong (.number 8 0) done line rest
        else if isLong && (c == '\n' || c == ' ' || c == '\t' || c == '\r') then
          basicFrom isLong .gap done next rest
        else .error { problem := .badEscape c, line }
    | .gap =>
      if c == '\n' || c == ' ' || c == '\t' || c == '\r' then basicFrom isLong .gap done next rest
      else if c == '\\' then basicFrom isLong .started done line rest
      else if c == '"' && !isLong then .ok (String.ofList done.reverse, { rest, line })
      else basicFrom isLong .none (c :: done) line rest
    | .none =>
      if c == '"' && !isLong then .ok (String.ofList done.reverse, { rest, line })
      else if c == '\\' then basicFrom isLong .started done line rest
      else if c == '\n' && !isLong then .error { problem := .newlineInString, line := next }
      else basicFrom isLong .none (c :: done) next rest

/-- A string without escapes after its quotes. -/
def literalFrom (isLong : Bool) (done : List Char) (line : Nat) :
    List Char → Except Malformed (String × Input)
  | [] => .error { problem := .unexpectedEnd, line }
  | '\'' :: '\'' :: '\'' :: rest =>
    if isLong then .ok (String.ofList done.reverse, { rest, line })
    else .ok (String.ofList done.reverse, { rest := '\'' :: '\'' :: rest, line })
  | c :: rest =>
    if c == '\'' && !isLong then .ok (String.ofList done.reverse, { rest, line })
    else if c == '\n' && !isLong then .error { problem := .newlineInString, line := line + 1 }
    else literalFrom isLong (c :: done) (if c == '\n' then line + 1 else line) rest

/-- A line end just after the quotes of a long string does not count. -/
def dropFirstBreak (i : Input) : Input :=
  match i.rest with
  | '\n' :: rest => { rest, line := i.line + 1 }
  | '\r' :: '\n' :: rest => { rest, line := i.line + 1 }
  | _ => i

/-- A string of any kind.  The quotes stand here. -/
def string (i : Input) : Except Malformed (String × Input) :=
  if i.rest.take 3 == ['"', '"', '"'] then
    let j := dropFirstBreak (i.drop 3)
    basicFrom true .none [] j.line j.rest
  else if i.rest.take 3 == ['\'', '\'', '\''] then
    let j := dropFirstBreak (i.drop 3)
    literalFrom true [] j.line j.rest
  else if i.rest.head? == some '"' then basicFrom false .none [] i.line (i.rest.drop 1)
  else literalFrom false [] i.line (i.rest.drop 1)

/-! ## 2. Keys -/

/-- One name of a key. -/
def name (i : Input) : Except Malformed (String × Input) :=
  if i.peek == '"' || i.peek == '\'' then string i
  else
    let bare := i.rest.takeWhile isBareChar
    if bare.isEmpty then i.fail (.keyStart i.peek)
    else .ok (String.ofList bare, i.drop bare.length)

/-- The names of a key up to a character that ends it.  `wrong` is the problem
with any other character. -/
def keyUntil (fuel : Nat) (stop : Char) (wrong : Char → Problem) (names : List String)
    (i : Input) : Except Malformed (List String × Input) :=
  match fuel with
  | 0 => i.fail .unexpectedEnd
  | n + 1 => do
    let (part, j) ← name i.skipBlanks
    let j := j.skipBlanks
    let names := part :: names
    if j.rest.head? == some '.' then keyUntil n stop wrong names (j.drop 1)
    else if j.rest.head? == some stop then .ok (names.reverse, j.drop 1)
    else j.fail (wrong j.peek)

/-! ## 3. Values -/

/-- Whether a character ends a value that has no quotes. -/
def endsValue (c : Char) : Bool := " \t\r\n,]\x7d#".toList.contains c

/-- Whether digits stand here, with underlines only between two of them. -/
def isDigits (p : Char → Bool) : List Char → Bool
  | [] => false
  | [c] => p c
  | c :: '_' :: rest => p c && isDigits p rest
  | c :: rest => p c && isDigits p rest

/-- A number without its sign. -/
def number? (text : List Char) : Option Value :=
  let whole := text.takeWhile fun c => c.isDigit || c == '_'
  let rest := text.drop whole.length
  let isExponent := fun (t : List Char) =>
    match t with
    | c :: d :: more =>
      (c == 'e' || c == 'E') &&
        isDigits Char.isDigit (if d == '+' || d == '-' then more else d :: more)
    | _ => false
  if text == "inf".toList || text == "nan".toList then some .float
  else if !isDigits Char.isDigit whole then none
  else if 1 < whole.length && whole.head? == some '0' then none
  else match rest with
    | [] => some .integer
    | '.' :: more =>
      let part := more.takeWhile fun c => c.isDigit || c == '_'
      let tail := more.drop part.length
      if isDigits Char.isDigit part && (tail.isEmpty || isExponent tail) then some .float else none
    | rest => if isExponent rest then some .float else none

/-- Whether a text looks like a date or a time of day. -/
def isDatetime : List Char → Bool
  | a :: b :: c :: d :: '-' :: _ => [a, b, c, d].all Char.isDigit
  | a :: b :: ':' :: _ => [a, b].all Char.isDigit
  | _ => false

/-- The value of a word without quotes. -/
def word? (text : List Char) : Option Value :=
  match text with
  | '0' :: 'x' :: rest => if isDigits (hexDigit? · |>.isSome) rest then some .integer else none
  | '0' :: 'o' :: rest =>
    if isDigits (fun c => '0' ≤ c && c ≤ '7') rest then some .integer else none
  | '0' :: 'b' :: rest =>
    if isDigits (fun c => c == '0' || c == '1') rest then some .integer else none
  | '+' :: rest => number? rest
  | '-' :: rest => number? rest
  | _ =>
    if text == "true".toList then some (.boolean true)
    else if text == "false".toList then some (.boolean false)
    else if isDatetime text then some .datetime
    else number? text

/-- Reads a word without quotes.  A date may be followed by a blank and a time. -/
def word (i : Input) : Except Malformed (Value × Input) :=
  let text := i.rest.takeWhile (!endsValue ·)
  let rest := i.rest.drop text.length
  let text := match isDatetime text && text.length == 10, rest with
    | true, ' ' :: c :: more =>
      if c.isDigit then text ++ ' ' :: (c :: more).takeWhile (!endsValue ·) else text
    | _, _ => text
  match word? text with
  | some v => .ok (v, i.drop text.length)
  | none =>
    i.fail (if i.rest.isEmpty then .unexpectedEnd else .badValue (String.ofList text))

mutual

/-- Reads a value and the entries inside it, which stand under `path`. -/
def value (fuel : Nat) (path : List String) (i : Input) :
    Except Malformed ((Value × List Entry) × Input) :=
  match fuel with
  | 0 => i.fail .unexpectedEnd
  | n + 1 =>
    if i.peek == '"' || i.peek == '\'' then do
      let (s, j) ← string i
      .ok ((.string s, []), j)
    else if i.peek == '[' then arrayItems n path (i.drop 1)
    else if i.peek == '\x7b' then inlineEntries n path [] (i.drop 1).skipBlanks
    else do
      let (v, j) ← word i
      .ok ((v, []), j)

/-- The items of an array after its bracket or a comma. -/
def arrayItems (fuel : Nat) (path : List String) (i : Input) :
    Except Malformed ((Value × List Entry) × Input) :=
  match fuel with
  | 0 => i.fail .unexpectedEnd
  | n + 1 =>
    let j := i.skip
    if j.rest.head? == some ']' then .ok ((.array, []), j.drop 1)
    else do
      let ((_, inner), k) ← value n path j
      let k := k.skip
      if k.rest.head? == some ',' then do
        let ((v, more), k) ← arrayItems n path (k.drop 1)
        .ok ((v, inner ++ more), k)
      else if k.rest.head? == some ']' then .ok ((.array, inner), k.drop 1)
      else k.fail (.arrayEnd k.peek)

/-- The entries of a table in braces after its brace or a comma. -/
def inlineEntries (fuel : Nat) (path : List String) (done : List Entry) (i : Input) :
    Except Malformed ((Value × List Entry) × Input) :=
  match fuel with
  | 0 => i.fail .unexpectedEnd
  | n + 1 =>
    if i.rest.head? == some '\x7d' && done.isEmpty then .ok ((.table, []), i.drop 1)
    else do
      let (names, j) ← keyUntil n '=' .keyEnd [] i
      let key := path ++ names
      let ((v, inner), k) ← value n key j.skipBlanks
      let done := done ++ { path := key, line := j.line, value := v } :: inner
      let k := k.skipBlanks
      if k.rest.head? == some ',' then inlineEntries n path done (k.drop 1).skipBlanks
      else if k.rest.head? == some '\x7d' then .ok ((.table, done), k.drop 1)
      else k.fail (.inlineEnd k.peek)

end

/-! ## 4. Files -/

/-- Checks that nothing but a comment stands before the end of the line. -/
def lineEnd (i : Input) : Except Malformed Input :=
  let j := i.skipBlanks.skipComment
  match j.rest with
  | [] => .ok j
  | '\n' :: _ => .ok j
  | '\r' :: '\n' :: _ => .ok j
  | c :: _ => j.fail (.itemEnd c)

/-- Reads the heading of a table or of one more item of a list of tables. -/
def heading (fuel : Nat) (i : Input) : Except Malformed (Entry × Input) :=
  if i.rest.take 2 == ['[', '['] then do
    let (path, j) ← keyUntil fuel ']' .tableName [] (i.drop 2)
    if j.rest.head? == some ']' then
      let k ← lineEnd (j.drop 1)
      .ok ({ path, line := i.line, value := .table, isRepeatable := true }, k)
    else j.fail (.tableName j.peek)
  else do
    let (path, j) ← keyUntil fuel ']' .tableName [] (i.drop 1)
    let k ← lineEnd j
    .ok ({ path, line := i.line, value := .table }, k)

/-- Reads a key with its value, under the table it belongs to. -/
def pair (fuel : Nat) (table : List String) (i : Input) :
    Except Malformed (List Entry × Input) := do
  let (names, j) ← keyUntil fuel '=' .keyEnd [] i
  let path := table ++ names
  let ((v, inner), k) ← value fuel path j.skipBlanks
  let k ← lineEnd k
  .ok ({ path, line := i.line, value := v } :: inner, k)

/-- Whether an entry was defined before. -/
def isRepeated (done : List Entry) (e : Entry) : Bool :=
  done.any fun d => d.path == e.path && !(d.isRepeatable && e.isRepeatable)

/-- Reads entries to the end of the text.  The last heading gives the table they
belong to. -/
def entries (fuel : Nat) (table : List String) (done : List Entry) (i : Input) :
    Except String (List Entry) :=
  match fuel with
  | 0 => .error (located i.line table Problem.unexpectedEnd.message)
  | n + 1 =>
    let j := i.skip
    let report := fun (e : Malformed) => located e.line table e.problem.message
    if j.rest.isEmpty then .ok done
    else if j.rest.head? == some '[' then
      match heading n j with
      | .error e => .error (report e)
      | .ok (e, k) =>
        if isRepeated done e then
          .error (located e.line table (Problem.repeatedKey e.path).message)
        else entries n e.path (done ++ [e]) k
    else
      match pair n table j with
      | .error e => .error (report e)
      | .ok (new, k) =>
        match new.find? (isRepeated done) with
        | some e => .error (located e.line e.path (Problem.repeatedKey e.path).message)
        | none => entries n table (done ++ new) k

/-- The entries of a settings file. -/
def read (text : String) : Except String (List Entry) :=
  entries (2 * text.length + 16) [] [] { rest := text.toList }

end RegAsm.Toml
