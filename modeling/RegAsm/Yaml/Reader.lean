/-
RegAsm.Yaml.Reader — reading a document.

A node is a scalar, a sequence or a mapping.  In a block the columns tell which
lines belong to a node; between brackets they do not matter.  A mapping shows
itself only by the colon after its first key, so a node that is followed by a
colon on the same line is taken as that key.

The readers below share a bound on the number of their steps.  It is computed
from the length of the text in `readDocument`; every step but a few between two
characters takes at least one character.
-/
import RegAsm.Yaml.Block
import RegAsm.Yaml.Quoted

namespace RegAsm.Yaml

/-! ## 1. Names and tags -/

/-- A tag and a name before a node. -/
structure Properties where
  tag : Option String := none
  anchor : Option String := none

/-- Whether a character can stand in the name of a node. -/
def isNameChar (c : Char) : Bool := c.isAlphanum || c == '_' || c == '-'

/-- Whether a name can end before this text. -/
def endsName : List Char → Bool
  | [] => true
  | c :: _ => isBlank c || isBreak c || "?:,]\x7d%@`".toList.contains c

/-- Reads a name after its mark. -/
def nodeName (i : Input) : Except Malformed (String × Input) :=
  let name := i.rest.takeWhile isNameChar
  let rest := i.rest.dropWhile isNameChar
  if name.isEmpty || !endsName rest then i.fail .badName
  else .ok (String.ofList name,
    { i with rest, column := i.column + name.length, keyAllowed := false })

/-- Whether a character can stand in a tag. -/
def isTagChar (c : Char) : Bool :=
  !isBlank c && !isBreak c && !",[]\x7b\x7d".toList.contains c

/-- The short form of a tag that is written out. -/
def shortTag (tag : String) : String :=
  let long := "!<tag:yaml.org,2002:".toList
  let text := tag.toList
  if long.isPrefixOf text then
    String.ofList ('!' :: '!' :: (text.drop long.length).takeWhile (· != '>'))
  else tag

/-- Reads a tag. -/
def nodeTag (i : Input) : Input × String :=
  let isLong := i.rest.take 2 == ['!', '<']
  let inTag := fun c => if isLong then !isBlank c && !isBreak c else isTagChar c
  let tag := i.rest.takeWhile inTag
  ({ i with
      rest := i.rest.dropWhile inTag, column := i.column + tag.length, keyAllowed := false },
    shortTag (String.ofList tag))

/-- Reads one tag or name, if one stands here. -/
def property (p : Properties) (i : Input) : Except Malformed (Properties × Input) :=
  match i.rest with
  | '&' :: _ => do
    let (name, j) ← nodeName i.next
    .ok ({ p with anchor := some name }, j)
  | '!' :: _ =>
    let (j, tag) := nodeTag i
    .ok ({ p with tag := some tag }, j)
  | _ => .ok (p, i)

/-- Reads a tag and a name in either order on one line. -/
def properties (i : Input) : Except Malformed (Properties × Input) := do
  let (p, j) ← property {} i
  let k := { j with
    rest := j.rest.dropWhile isBlank
    column := j.column + (j.rest.takeWhile isBlank).length }
  property p k

namespace Properties

/-- Puts the tag on a scalar. -/
def tagged (p : Properties) : Node → Node
  | .scalar none isQuoted value line => .scalar (p.tag.filter (· != "!")) isQuoted value line
  | n => n

/-- Puts the tag on a node and remembers it under its name. -/
def apply (p : Properties) (n : Node) (i : Input) : Node × Input :=
  let n := p.tagged n
  match p.anchor with
  | none => (n, i)
  | some name => (n, { i with anchors := (name, n) :: i.anchors })

end Properties

/-! ## 2. Nodes -/

/-- Whether a node can be a key: its colon stands on the line it starts on and
not too far away. -/
def isKeyFrom (start colon : Input) : Bool :=
  start.line == colon.line && colon.column - start.column ≤ 1024

/-- Whether a property stands here. -/
def atProperty (i : Input) : Bool := i.rest.head? == some '&' || i.rest.head? == some '!'

/-- Whether an entry between brackets ends here. -/
def endsEntry (close : Char) (i : Input) : Bool :=
  i.rest.head? == some ',' || i.rest.head? == some close

mutual

/-- A node without properties that starts and, apart from its line ends, stands
like one word: an alias, a quoted or plain scalar, or a bracket. -/
def content (fuel : Nat) (inFlow : Bool) (parent : Nat) (i : Input) :
    Except Malformed (Node × Input) :=
  match fuel with
  | 0 => i.fail .tooDeep
  | n + 1 =>
    let line := i.line + 1
    match i.rest with
    | '*' :: _ => do
      let (name, j) ← nodeName i.next
      match j.anchors.lookup name with
      | some node => .ok (node, j)
      | none => i.fail (.unknownAnchor name)
    | '[' :: _ => flowSequence n line [] i.next
    | '\x7b' :: _ => flowMapping n line [] i.next
    | '\'' :: _ => do
      let (text, j) ← singleQuoted i.next
      .ok (.scalar none true text line, j)
    | '"' :: _ => do
      let (text, j) ← doubleQuoted i.next
      .ok (.scalar none true text line, j)
    | _ =>
      if startsPlain inFlow i.rest then do
        let (text, j) ← plain inFlow parent i
        .ok (.scalar none false text line, j)
      else i.fail .badStart

/-- A node between brackets. -/
def flowNode (fuel : Nat) (close : Char) (i : Input) : Except Malformed (Node × Input) :=
  match fuel with
  | 0 => i.fail .tooDeep
  | n + 1 =>
    if atProperty i then do
      let (p, j) ← properties i
      let k := j.skip true
      if endsEntry close k || k.rest.head? == some ':' then
        .ok (p.apply (.empty (i.line + 1)) k)
      else
        let (node, k) ← content n true 0 k
        .ok (p.apply node k)
    else content n true 0 i

/-- The value after a colon between brackets. -/
def flowValue (fuel : Nat) (close : Char) (i : Input) : Except Malformed (Node × Input) :=
  match fuel with
  | 0 => i.fail .tooDeep
  | n + 1 =>
    let j := i.skip true
    if endsEntry close j then .ok (.empty (i.line + 1), j) else flowNode n close j

/-- A key and its value between brackets.  The flag tells whether there was a
colon or a mark of a key. -/
def flowEntry (fuel : Nat) (close : Char) (i : Input) :
    Except Malformed ((Node × Node × Bool) × Input) :=
  match fuel with
  | 0 => i.fail .tooDeep
  | n + 1 =>
    if i.rest.head? == some '?' then do
      let j := i.next.skip true
      let (key, k) ←
        if endsEntry close j || j.rest.head? == some ':' then .ok (.empty (i.line + 1), j)
        else flowNode n close j
      let k := k.skip true
      if k.rest.head? == some ':' then
        let (value, k) ← flowValue n close k.next
        .ok ((key, value, true), k)
      else .ok ((key, .empty (k.line + 1), true), k)
    else do
      let (key, j) ← flowNode n close i
      let k := j.skip true
      if k.rest.head? == some ':' && isKeyFrom i k then
        let (value, k) ← flowValue n close k.next
        .ok ((key, value, true), k)
      else .ok ((key, .empty (k.line + 1), false), k)

/-- The entries of a sequence after its bracket or a comma. -/
def flowSequence (fuel : Nat) (line : Nat) (items : List Node) (i : Input) :
    Except Malformed (Node × Input) :=
  match fuel with
  | 0 => i.fail .tooDeep
  | n + 1 =>
    let j := i.skip true
    if j.atEnd then j.fail .missingSequenceEnd
    else if j.rest.head? == some ']' then
      .ok (.sequence items.reverse line, { j.next with keyAllowed := false })
    else do
      let ((key, value, isPair), k) ← flowEntry n ']' j
      let item := if isPair then .mapping [(key, value)] (j.line + 1) else key
      let k := k.skip true
      match k.rest with
      | ',' :: _ => flowSequence n line (item :: items) k.next
      | ']' :: _ =>
        .ok (.sequence (item :: items).reverse line, { k.next with keyAllowed := false })
      | _ => k.fail .missingSequenceEnd

/-- The entries of a mapping after its brace or a comma. -/
def flowMapping (fuel : Nat) (line : Nat) (entries : List (Node × Node)) (i : Input) :
    Except Malformed (Node × Input) :=
  match fuel with
  | 0 => i.fail .tooDeep
  | n + 1 =>
    let j := i.skip true
    if j.atEnd then j.fail .missingMappingEnd
    else if j.rest.head? == some '\x7d' then
      .ok (.mapping entries.reverse line, { j.next with keyAllowed := false })
    else do
      let ((key, value, _), k) ← flowEntry n '\x7d' j
      let k := k.skip true
      match k.rest with
      | ',' :: _ => flowMapping n line ((key, value) :: entries) k.next
      | '\x7d' :: _ =>
        .ok (.mapping ((key, value) :: entries).reverse line, { k.next with keyAllowed := false })
      | _ => k.fail .missingMappingEnd

/-- A node in a block.  Its lines start at column `parent` or after. -/
def blockNode (fuel : Nat) (parent : Nat) (i : Input) : Except Malformed (Node × Input) :=
  match fuel with
  | 0 => i.fail .tooDeep
  | n + 1 =>
    let line := i.line + 1
    if i.atMark '-' then
      if i.keyAllowed then blockSequence n false i.column line [] i else i.fail .entryNotAllowed
    else if i.atMark '?' then
      if i.keyAllowed then blockMapping n i.column line [] i else i.fail .keyNotAllowed
    else if i.atMark ':' then
      i.fail (if i.keyAllowed then .missingKey else .valueNotAllowed)
    else if atProperty i then do
      let (p, j) ← properties i
      let k := j.skip false
      if k.line != i.line then
        if k.atEnd || k.column < parent then .ok (p.apply (.empty line) k)
        else
          let (node, k) ← blockNode n parent k
          .ok (p.apply node k)
      else if k.rest.isEmpty then .ok (p.apply (.empty line) k)
      else if k.rest.head? == some '|' || k.rest.head? == some '>' then
        let (text, k) ← blockScalar (k.rest.head? == some '|') parent k.next
        .ok (p.apply (.scalar none true text line) k)
      else
        let (node, k) ← content n false parent k
        let (node, k) := p.apply node k
        afterNode n i node k
    else if i.rest.head? == some '|' || i.rest.head? == some '>' then do
      let (text, j) ← blockScalar (i.rest.head? == some '|') parent i.next
      .ok (.scalar none true text line, j)
    else do
      let (node, j) ← content n false parent i
      afterNode n i node j

/-- What a node is once the text after it is seen: the first key of a mapping,
or itself. -/
def afterNode (fuel : Nat) (start : Input) (node : Node) (i : Input) :
    Except Malformed (Node × Input) :=
  match fuel with
  | 0 => i.fail .tooDeep
  | n + 1 =>
    let j := i.skip false
    if j.atMark ':' then
      if start.keyAllowed && isKeyFrom start j then do
        let (value, k) ← below n start.column false j.next
        moreEntries n start.column (start.line + 1) [(node, value)] k
      else if j.keyAllowed then .ok (node, i)
      else j.fail .valueNotAllowed
    else .ok (node, i)

/-- The node that belongs to a mark at a column.  It stands on the same line or
deeper; a sequence may also stand at the column itself. -/
def below (fuel : Nat) (column : Nat) (keyAllowed : Bool) (i : Input) :
    Except Malformed (Node × Input) :=
  match fuel with
  | 0 => i.fail .tooDeep
  | n + 1 =>
    let j := { i with keyAllowed }.skip false
    if j.atEnd then .ok (.empty (i.line + 1), j)
    else if column < j.column then blockNode n (column + 1) j
    else if j.column == column && j.atMark '-' then
      blockSequence n true column (j.line + 1) [] j
    else .ok (.empty (i.line + 1), j)

/-- The entries of a sequence whose marks stand at a column.  `isFlush` tells
that the sequence stands at the column of the key it belongs to. -/
def blockSequence (fuel : Nat) (isFlush : Bool) (column line : Nat) (items : List Node)
    (i : Input) : Except Malformed (Node × Input) :=
  match fuel with
  | 0 => i.fail .tooDeep
  | n + 1 => do
    let j := { i.next with keyAllowed := true }.skip false
    let (item, k) ←
      if !j.atEnd && column < j.column then blockNode n (column + 1) j
      else .ok (.empty (i.line + 1), j)
    let items := item :: items
    let k := k.skip false
    if k.atEnd || k.column < column then .ok (.sequence items.reverse line, k)
    else if k.column == column && k.atMark '-' then
      blockSequence n isFlush column line items k
    else if isFlush && k.column == column then .ok (.sequence items.reverse line, k)
    else k.fail .missingEntry

/-- The entries of a mapping whose keys stand at a column. -/
def blockMapping (fuel : Nat) (column line : Nat) (entries : List (Node × Node)) (i : Input) :
    Except Malformed (Node × Input) :=
  match fuel with
  | 0 => i.fail .tooDeep
  | n + 1 =>
    if i.atMark '?' then do
      let (key, j) ← below n column true i.next
      let k := j.skip false
      if !k.atEnd && k.column == column && k.atMark ':' then
        let (value, k) ← below n column true k.next
        moreEntries n column line ((key, value) :: entries) k
      else moreEntries n column line ((key, .empty (k.line + 1)) :: entries) k
    else do
      let (p, j) ← properties i
      let (key, k) ← content n false (column + 1) j
      let (key, k) := p.apply key k
      let k := k.skip false
      if k.atMark ':' && isKeyFrom i k then
        let (value, k) ← below n column false k.next
        moreEntries n column line ((key, value) :: entries) k
      else i.fail .missingColon

/-- Goes on with a mapping after an entry. -/
def moreEntries (fuel : Nat) (column line : Nat) (entries : List (Node × Node)) (i : Input) :
    Except Malformed (Node × Input) :=
  match fuel with
  | 0 => i.fail .tooDeep
  | n + 1 =>
    let j := i.skip false
    if j.atEnd || j.column < column then .ok (.mapping entries.reverse line, j)
    else if j.column == column then blockMapping n column line entries j
    else j.fail .missingKey

end

/-! ## 3. Documents -/

/-- Looks at what follows a document as far as the next mark or scalar. -/
def checkRest (i : Input) : Except Malformed Unit :=
  let j := i.skip false
  if j.atEnd then .ok ()
  else if j.atMark ':' && !j.keyAllowed then j.fail .valueNotAllowed
  else if j.atMark '-' && !j.keyAllowed then j.fail .entryNotAllowed
  else if j.atMark '?' && !j.keyAllowed then j.fail .keyNotAllowed
  else match j.rest with
    | '"' :: _ => (doubleQuoted j.next).map fun _ => ()
    | '\'' :: _ => (singleQuoted j.next).map fun _ => ()
    | '|' :: _ => (blockScalar true 0 j.next).map fun _ => ()
    | '>' :: _ => (blockScalar false 0 j.next).map fun _ => ()
    | c :: _ => if "%@`\t".toList.contains c then j.fail .badStart else .ok ()
    | [] => .ok ()

/-- Whether a line is a directive that is known. -/
def isDirective (line : List Char) : Bool :=
  let name := line.takeWhile (!isBlank ·)
  name == "%YAML".toList || name == "%TAG".toList

/-- Skips the directives at the start of a text, of which there are at most as
many as lines.  The flag tells whether there was one. -/
def directives (fuel : Nat) (found : Bool) (i : Input) : Except Malformed (Bool × Input) :=
  match fuel with
  | 0 => i.fail .tooDeep
  | n + 1 =>
    let j := i.skip false
    if j.column == 0 && j.rest.head? == some '%' then
      let line := j.rest.takeWhile (!isBreak ·)
      if isDirective line then
        directives n true
          { j with rest := j.rest.drop line.length, column := j.column + line.length }
      else j.fail .badDirective
    else .ok (found, j)

/-- The document that starts here. -/
def documentFrom (fuel : Nat) (i : Input) : Except Malformed (Option Node) := do
  let (hasDirective, i) ← directives fuel false i
  if i.rest.isEmpty then
    if hasDirective then i.fail .missingDocumentStart else .ok none
  else if i.column == 0 && isBorder i.rest then
    if i.rest.head? == some '.' then i.fail .missingDocumentStart
    else
      let j := { i with rest := i.rest.drop 3, column := 3, keyAllowed := false }.skip false
      if j.atEnd then .ok (some (.empty (i.line + 1)))
      else
        let (node, k) ← blockNode fuel 0 j
        checkRest k
        .ok (some node)
  else if hasDirective then i.fail .missingDocumentStart
  else
    let (node, k) ← blockNode fuel 0 i
    checkRest k
    .ok (some node)

/-- Reads the first document of a text.  A text of blanks and comments has
none. -/
def readDocument (text : String) : Except Malformed (Option Node) :=
  let chars := text.toList
  let chars := if chars.head? == some '\uFEFF' then chars.tail else chars
  if chars.all isAllowed then
    let chars := unifyBreaks chars
    documentFrom (8 * chars.length + 16) { rest := chars }
  else .error { problem := .controlCharacter, line := 1 }

end RegAsm.Yaml
