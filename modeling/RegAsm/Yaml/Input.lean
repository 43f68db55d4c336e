/-
RegAsm.Yaml.Input — the text still to be read, and how it is skipped.
-/
import RegAsm.Yaml.Node
import RegAsm.Yaml.Written

namespace RegAsm.Yaml

/-- The text still to be read and the place it starts at.  Lines and columns
count from zero. -/
structure Input where
  rest : List Char
  line : Nat := 0
  column : Nat := 0
  /-- Whether a key without a mark of its own may start here. -/
  keyAllowed : Bool := true
  /-- The nodes that were given a name, the latest first. -/
  anchors : List (String × Node) := []
  deriving Inhabited

/-- Whether a text goes on with a blank or a break, or ends. -/
def spaceOrEnd : List Char → Bool
  | [] => true
  | c :: _ => isBlank c || isBreak c

/-- Whether a line starts with the border of a document. -/
def isBorder : List Char → Bool
  | '-' :: '-' :: '-' :: rest => spaceOrEnd rest
  | '.' :: '.' :: '.' :: rest => spaceOrEnd rest
  | _ => false

namespace Input

/-- Fails at this place. -/
def fail {α : Type} (i : Input) (p : Problem) : Except Malformed α :=
  .error { problem := p, line := i.line + 1 }

/-- Moves past a character. -/
def next (i : Input) : Input :=
  match i.rest with
  | [] => i
  | c :: rest =>
    if isBreak c then { i with rest, line := i.line + 1, column := 0 }
    else { i with rest, column := i.column + 1 }

/-- Whether the document ends here. -/
def atEnd (i : Input) : Bool := i.rest.isEmpty || (i.column == 0 && isBorder i.rest)

/-- Whether a mark stands here and a blank after it. -/
def atMark (i : Input) (mark : Char) : Bool :=
  match i.rest with
  | c :: rest => c == mark && spaceOrEnd rest
  | [] => false

/-- The skipping of blanks, breaks and comments.  A tab is not skipped where a
key could start.  In a block a new line allows a key. -/
def skipFrom (inFlow comment : Bool) (line column : Nat) (keyAllowed : Bool) :
    List Char → List Char × Nat × Nat × Bool
  | [] => ([], line, column, keyAllowed)
  | c :: rest =>
    if isBreak c then skipFrom inFlow false (line + 1) 0 (keyAllowed || !inFlow) rest
    else if comment || c == ' ' || (c == '\t' && (inFlow || !keyAllowed)) then
      skipFrom inFlow comment line (column + 1) keyAllowed rest
    else if c == '#' then skipFrom inFlow true line (column + 1) keyAllowed rest
    else (c :: rest, line, column, keyAllowed)

/-- Moves to the next thing that is neither blank nor comment. -/
def skip (inFlow : Bool) (i : Input) : Input :=
  let (rest, line, column, keyAllowed) :=
    skipFrom inFlow false i.line i.column i.keyAllowed i.rest
  { i with rest, line, column, keyAllowed }

end Input

/-- Line ends of every system become one character. -/
def unifyBreaks : List Char → List Char
  | [] => []
  | '\r' :: '\n' :: rest => '\n' :: unifyBreaks rest
  | c :: rest => (if c == '\r' || c.toNat == 0x85 then '\n' else c) :: unifyBreaks rest

/-- Whether a character may stand in a document at all. -/
def isAllowed (c : Char) : Bool :=
  let n := c.toNat
  n == 0x09 || n == 0x0A || n == 0x0D || (0x20 ≤ n && n ≤ 0x7E) || n == 0x85 ||
    (0xA0 ≤ n && n ≤ 0xFFFD) || 0x10000 ≤ n

end RegAsm.Yaml
