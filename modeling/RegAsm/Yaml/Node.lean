/-
RegAsm.Yaml.Node — the tree of a document, and why a text has none.
-/
import RegAsm.Yaml.Scalar

namespace RegAsm.Yaml

/-- A part of a document with the line it starts on.  The first line is 1. -/
inductive Node where
  /-- A scalar; quoted ones are always text unless a tag says otherwise. -/
  | scalar (tag : Option String) (isQuoted : Bool) (value : String) (line : Nat)
  | sequence (items : List Node) (line : Nat)
  | mapping (entries : List (Node × Node)) (line : Nat)
  deriving Inhabited

namespace Node

/-- The line a node starts on. -/
def line : Node → Nat
  | .scalar _ _ _ line => line
  | .sequence _ line => line
  | .mapping _ line => line

/-- The node that stands where nothing is written. -/
def empty (line : Nat) : Node := .scalar none false "" line

end Node

/-- What is wrong with a text. -/
inductive Problem where
  | unexpectedEnd
  | unknownEscape
  | badNumberEscape
  | badCodePoint
  | innerBorder
  | badStart
  | tabIndentation
  | valueNotAllowed
  | entryNotAllowed
  | keyNotAllowed
  | missingColon
  | missingKey
  | missingEntry
  | missingContent
  | missingSequenceEnd
  | missingMappingEnd
  | badBlockHeader
  | badName
  | unknownAnchor (name : String)
  | controlCharacter
  | badDirective
  | missingDocumentStart
  | tooDeep
  deriving DecidableEq, Repr

/-- The wording of a problem. -/
def Problem.message : Problem → String
  | .unexpectedEnd => "found unexpected end of stream"
  | .unknownEscape => "found unknown escape character"
  | .badNumberEscape => "did not find expected hexdecimal number"
  | .badCodePoint => "found invalid Unicode character escape code"
  | .innerBorder => "found unexpected document indicator"
  | .badStart => "found character that cannot start any token"
  | .tabIndentation => "found a tab character that violates indentation"
  | .valueNotAllowed => "mapping values are not allowed in this context"
  | .entryNotAllowed => "block sequence entries are not allowed in this context"
  | .keyNotAllowed => "mapping keys are not allowed in this context"
  | .missingColon => "could not find expected ':'"
  | .missingKey => "did not find expected key"
  | .missingEntry => "did not find expected '-' indicator"
  | .missingContent => "did not find expected node content"
  | .missingSequenceEnd => "did not find expected ',' or ']'"
  | .missingMappingEnd => "did not find expected ',' or '\x7d'"
  | .badBlockHeader => "did not find expected comment or line break"
  | .badName => "did not find expected alphabetic or numeric character"
  | .unknownAnchor name => "unknown anchor '" ++ name ++ "' referenced"
  | .controlCharacter => "control characters are not allowed"
  | .badDirective => "found unknown directive name"
  | .missingDocumentStart => "did not find expected <document start>"
  | .tooDeep => "exceeded max depth"

/-- A problem and the line it was met on. -/
structure Malformed where
  problem : Problem
  line : Nat
  deriving DecidableEq, Repr

/-- The wording of the error. -/
def Malformed.message (e : Malformed) : String :=
  "yaml: line " ++ toString e.line ++ ": " ++ e.problem.message

end RegAsm.Yaml
