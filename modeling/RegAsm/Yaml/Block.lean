/-
RegAsm.Yaml.Block — reading blocks of text.

After `|` the lines are kept, after `>` they are joined.  A digit gives the
indentation; otherwise the first line that is not empty does.  A sign says what
happens to the last line ends: `-` drops all, `+` keeps all, and without one the
first is kept.
-/
import RegAsm.Yaml.Input

namespace RegAsm.Yaml

/-- What becomes of the line ends at the end. -/
inductive Chomp where
  | strip
  | clip
  | keep
  deriving DecidableEq

/-- The sign for the last line ends. -/
def chomp? : Char → Option Chomp
  | '-' => some .strip
  | '+' => some .keep
  | _ => none

/-- The digit for the indentation. -/
def indentDigit? (c : Char) : Option Nat :=
  match decimalDigit? c with
  | some 0 => none
  | d => d

/-- The marks of a header in either order, and what follows. -/
def blockMarks : List Char → Chomp × Option Nat × List Char
  | c :: d :: rest =>
    match chomp? c, indentDigit? c with
    | some m, _ =>
      match indentDigit? d with
      | some n => (m, some n, rest)
      | none => (m, none, d :: rest)
    | none, some n =>
      match chomp? d with
      | some m => (m, some n, rest)
      | none => (.clip, some n, d :: rest)
    | none, none => (.clip, none, c :: d :: rest)
  | [c] =>
    match chomp? c, indentDigit? c with
    | some m, _ => (m, none, [])
    | none, some n => (.clip, some n, [])
    | none, none => (.clip, none, [c])
  | [] => (.clip, none, [])

/-- A block as far as it was read.  Texts are in reverse. -/
structure BlockText where
  text : List Char := []
  /-- The end of the last line with text. -/
  lead : List Char := []
  /-- The line ends after it. -/
  trail : List Char := []
  /-- Whether the last line with text started with a blank. -/
  ledByBlank : Bool := false

namespace BlockText

/-- Starts a line with text.  Between two lines of a joined block that do not
start with a blank, one line end becomes a space. -/
def begin (b : BlockText) (isLiteral : Bool) (blank : Bool) : BlockText :=
  let joined :=
    if !isLiteral && !b.ledByBlank && !blank && b.lead == ['\n'] then
      if b.trail.isEmpty then ' ' :: b.text else b.text
    else b.lead ++ b.text
  { text := b.trail ++ joined, ledByBlank := blank }

/-- The text with the line ends it keeps. -/
def finish (b : BlockText) (m : Chomp) : String :=
  String.ofList <| List.reverse <|
    match m with
    | .strip => b.text
    | .clip => b.lead ++ b.text
    | .keep => b.trail ++ b.lead ++ b.text

end BlockText

/-- The indentation that the first lines show: the deepest up to the first
line with text.  Nothing if a tab stands in it. -/
def shownIndent? (deepest column : Nat) : List Char → Option Nat
  | [] => some (max deepest column)
  | c :: rest =>
    if c == ' ' then shownIndent? deepest (column + 1) rest
    else if isBreak c then shownIndent? (max deepest column) 0 rest
    else if c == '\t' then none
    else some (max deepest column)

/-- Reads the lines of a block.  `inLine` tells that the text of a line has
begun. -/
def blockLines (isLiteral : Bool) (indent : Nat) (m : Chomp) (i : Input) (b : BlockText)
    (inLine : Bool) (line column : Nat) : List Char → Except Malformed (String × Input)
  | [] => .ok (b.finish m, { i with rest := [], line, column, keyAllowed := true })
  | c :: rest =>
    if inLine then
      if isBreak c then
        blockLines isLiteral indent m i { b with lead := [c] } false (line + 1) 0 rest
      else
        blockLines isLiteral indent m i { b with text := c :: b.text } true line (column + 1) rest
    else if c == ' ' && column < indent then
      blockLines isLiteral indent m i b false line (column + 1) rest
    else if c == '\t' && column < indent then
      .error { problem := .tabIndentation, line := line + 1 }
    else if isBreak c then
      blockLines isLiteral indent m i { b with trail := c :: b.trail } false (line + 1) 0 rest
    else if column == indent then
      let b := b.begin isLiteral (isBlank c)
      blockLines isLiteral indent m i { b with text := c :: b.text } true line (column + 1) rest
    else .ok (b.finish m, { i with rest := c :: rest, line, column, keyAllowed := true })

/-- Reads a block after its `|` or `>`.  `parent` is the indentation around it
plus one. -/
def blockScalar (isLiteral : Bool) (parent : Nat) (i : Input) :
    Except Malformed (String × Input) :=
  let (m, digit, rest) := blockMarks i.rest
  let rest := rest.dropWhile isBlank
  let rest := if rest.head? == some '#' then rest.dropWhile (!isBreak ·) else rest
  let lines? := match rest with
    | [] => some []
    | c :: lines => if isBreak c then some lines else none
  match lines? with
  | none => i.fail .badBlockHeader
  | some lines =>
    let indent? := match digit with
      | some n => some (parent - 1 + n)
      | none => (shownIndent? 0 0 lines).map (max parent ·)
    match indent? with
    | none => i.fail .tabIndentation
    | some indent =>
      blockLines isLiteral (max 1 indent) m i {} false (i.line + 1) 0 lines

end RegAsm.Yaml
