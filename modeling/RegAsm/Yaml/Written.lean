/-
RegAsm.Yaml.Written — how a text is written as a scalar, and what scalars are put
together to.

A text is written in the simplest style that reads back as the same text.
Without quotes it must not mean anything else and must not look like the marks
of the format.  Single quotes keep every character but cannot show control
characters.  Double quotes can.  A text of several lines becomes a block.
-/
import RegAsm.Text.Hex
import RegAsm.Yaml.Scalar

namespace RegAsm.Yaml

/-! ## 1. Characters -/

/-- Whether a character ends a line. -/
def isBreak (c : Char) : Bool :=
  c == '\n' || c == '\r' || c.toNat == 0x85 || c.toNat == 0x2028 || c.toNat == 0x2029

/-- Whether a character is a space or a tab. -/
def isBlank (c : Char) : Bool := c == ' ' || c == '\t'

/-- Whether a character can stand in a text as it is. -/
def isWritable (c : Char) : Bool :=
  let n := c.toNat
  n == 0x0A || (0x20 ≤ n && n ≤ 0x7E) || (0xA0 ≤ n && n ≤ 0xFFFD && n != 0xFEFF)

/-! ## 2. What a text looks like -/

/-- The words that other readers take for truth values. -/
def switchWords : List String :=
  ["y", "Y", "yes", "Yes", "YES", "on", "On", "ON",
   "n", "N", "no", "No", "NO", "off", "Off", "OFF"]

/-- Whether digits, the last one first, are one place of a base-60 number. -/
def isSixtieth : List Char → Bool
  | [_] => true
  | [_, high] => high ≤ '5'
  | _ => false

/-- The places of a base-60 number after its first colon. -/
def isSixtieths (digits : List Char) : List Char → Bool
  | [] => isSixtieth digits
  | ':' :: rest => isSixtieth digits && isSixtieths [] rest
  | '.' :: rest => isSixtieth digits && rest.all fun c => isDigit c || c == '_'
  | c :: rest => isDigit c && isSixtieths (c :: digits) rest

/-- Whether a text is a base-60 number such as `12:30`. -/
def isBase60 (text : List Char) : Bool :=
  let body := (takeSign text).2
  match body, body.dropWhile fun c => isDigit c || c == '_' with
  | c :: _, ':' :: rest => isDigit c && isSixtieths [] rest
  | _, _ => false

/-- Whether a text written without quotes is read as a text. -/
def readsAsText (s : String) : Bool :=
  meaning s == .text && !isBase60 s.toList && !switchWords.contains s

/-- Whether a text goes on with a blank or ends. -/
def blankOrEnd : List Char → Bool
  | [] => true
  | c :: _ => isBlank c

/-- Whether the first character is a mark of the format. -/
def startsWithMark : List Char → Bool
  | [] => false
  | c :: rest =>
    "#,[]\x7b\x7d&*!|>'\"%@`".toList.contains c ||
      ((c == '?' || c == ':' || c == '-') && blankOrEnd rest)

/-- Whether a mark of the format stands after the first character.  The flag
tells whether a blank or a break came before. -/
def hasInnerMark (afterBlank : Bool) : List Char → Bool
  | [] => false
  | c :: rest =>
    (c == ':' && blankOrEnd rest) || (c == '#' && afterBlank) ||
      hasInnerMark (isBlank c || isBreak c) rest

/-- Whether a text starts like the border of a document. -/
def startsLikeBorder : List Char → Bool
  | '-' :: '-' :: '-' :: _ => true
  | '.' :: '.' :: '.' :: _ => true
  | _ => false

/-- Whether a text holds a mark that cannot be written without quotes. -/
def hasMark : List Char → Bool
  | [] => false
  | c :: rest =>
    startsLikeBorder (c :: rest) || startsWithMark (c :: rest) ||
      hasInnerMark (isBlank c || isBreak c) rest

/-- Whether two characters in a row satisfy two conditions. -/
def hasPair (p q : Char → Bool) : List Char → Bool
  | c :: d :: rest => (p c && q d) || hasPair p q (d :: rest)
  | _ => false

/-- Whether a text begins or ends with a character of a kind. -/
def hasEdge (p : Char → Bool) (text : List Char) : Bool :=
  text.head?.any p || text.getLast?.any p

/-! ## 3. Styles -/

/-- The ways to write a text. -/
inductive Style where
  | plain
  | single
  | double
  | block
  deriving DecidableEq, Repr

/-- Whether a text can be a block: every character shows, and no line ends
in a space. -/
def blockAllowed (text : List Char) : Bool :=
  text.all (fun c => isWritable c || c == '\t') && !hasPair (· == ' ') isBreak text &&
    !text.getLast?.any (· == ' ')

/-- Whether a text can stand between single quotes. -/
def singleAllowed (text : List Char) : Bool :=
  text.all isWritable && !hasPair (· == ' ') isBreak text && !hasPair isBreak (· == ' ') text

/-- Whether a text that reads as a text can stand without quotes. -/
def plainAllowed (text : List Char) : Bool :=
  singleAllowed text && !text.any isBreak && !hasEdge (· == ' ') text && !hasMark text

/-- The style of a text. -/
def styleOf (s : String) : Style :=
  let text := s.toList
  if text.contains '\n' then (if blockAllowed text then .block else .double)
  else if !readsAsText s then .double
  else if plainAllowed text then .plain
  else if singleAllowed text then .single
  else .double

/-! ## 4. Writing -/

/-- The character that stands for another one after a backslash. -/
def shortEscape? : Nat → Option Char
  | 0x00 => some '0'
  | 0x07 => some 'a'
  | 0x08 => some 'b'
  | 0x09 => some 't'
  | 0x0A => some 'n'
  | 0x0B => some 'v'
  | 0x0C => some 'f'
  | 0x0D => some 'r'
  | 0x1B => some 'e'
  | 0x22 => some '"'
  | 0x5C => some '\\'
  | 0x85 => some 'N'
  | 0x2028 => some 'L'
  | 0x2029 => some 'P'
  | _ => none

/-- One character between double quotes. -/
def doubleChar (c : Char) : List Char :=
  if isWritable c && !isBreak c && c != '"' && c != '\\' then [c]
  else match shortEscape? c.toNat with
    | some letter => ['\\', letter]
    | none =>
      if c.toNat ≤ 0xFF then '\\' :: 'x' :: Text.hexUpper 2 c.toNat
      else if c.toNat ≤ 0xFFFF then '\\' :: 'u' :: Text.hexUpper 4 c.toNat
      else '\\' :: 'U' :: Text.hexUpper 8 c.toNat

/-- A text between double quotes. -/
def double (text : List Char) : List Char := '"' :: text.flatMap doubleChar ++ ['"']

/-- The characters between single quotes.  The first one after a break stands
behind the indentation. -/
def singleChars (indent : Nat) (afterBreak : Bool) : List Char → List Char
  | [] => []
  | c :: rest =>
    if isBreak c then c :: singleChars indent true rest
    else (if afterBreak then List.replicate indent ' ' else []) ++
      (if c = '\'' then ['\'', '\''] else [c]) ++ singleChars indent false rest

/-- A text between single quotes. -/
def single (indent : Nat) (text : List Char) : List Char :=
  '\'' :: singleChars indent false text ++ ['\'']

/-- The mark after `|` that says what happens to the last line ends. -/
def chompMark (text : List Char) : List Char :=
  match text.reverse with
  | [] => ['-']
  | c :: before =>
    if !isBreak c then ['-']
    else match before with
      | [] => ['+']
      | d :: _ => if isBreak d then ['+'] else []

/-- The lines of a block.  An empty line is not indented. -/
def blockChars (indent : Nat) (afterBreak : Bool) : List Char → List Char
  | [] => []
  | c :: rest =>
    if isBreak c then c :: blockChars indent true rest
    else (if afterBreak then List.replicate indent ' ' else []) ++ c :: blockChars indent false rest

/-- A text as a block.  A first line that is empty shares the line end of the
header. -/
def block (indent : Nat) (text : List Char) : List Char :=
  let hint := if text.head?.any (fun c => c == ' ' || isBreak c) then ['2'] else []
  let start := if text.head?.any isBreak then [] else ['\n']
  '|' :: hint ++ chompMark text ++ start ++ blockChars indent true text

/-- A text as a scalar, with the end of its last line.  Lines after the first
are indented by the given number of spaces. -/
def writtenLine (indent : Nat) (s : String) : List Char :=
  let text := s.toList
  match styleOf s with
  | .plain => text ++ ['\n']
  | .single => single indent text ++ ['\n']
  | .double => double text ++ ['\n']
  | .block => block indent text ++ (if text.getLast?.any isBreak then [] else ['\n'])

/-! ## 5. Lists and mappings -/

/-- Words behind the first one of a list between brackets, up to the bracket. -/
def flowRest : List (List Char) → List Char
  | [] => [']']
  | w :: ws => ',' :: ' ' :: w ++ flowRest ws

/-- Words between brackets. -/
def flowText : List (List Char) → List Char
  | [] => ['[', ']']
  | w :: ws => '[' :: w ++ flowRest ws

/-- The lines of an entry but for the indentation of the first.  An entry is a key
with the text behind its colon. -/
def entryText (e : String × List Char) : List Char := e.1.toList ++ ':' :: e.2

/-- The lines of the entries of a mapping at a column, but for the indentation of the
first. -/
def mappingText (column : Nat) : List (String × List Char) → List Char
  | [] => ['\x7b', '\x7d', '\n']
  | e :: es => entryText e ++ es.flatMap fun e => List.replicate column ' ' ++ entryText e

/-- The lines of a list whose marks stand at a column.  The lines of an entry lack the
indentation of the first. -/
def itemsText (column : Nat) (texts : List (List Char)) : List Char :=
  texts.flatMap fun text => List.replicate column ' ' ++ '-' :: ' ' :: text

end RegAsm.Yaml
