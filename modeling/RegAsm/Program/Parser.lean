/-
RegAsm.Program.Parser — reading a program from its tokens.

A statement is read by trying its productions in a fixed order; the first one
that succeeds wins, and one that fails leaves the stream where it was.  What a
production reads at a place is remembered, so that asking again at the same
place is answered without reading.

1. Productions: what they are and how they are put together.
2. Remembering what was read.
3. The forms of an operand.
4. The statements.
5. The parser, which reads statements up to the end token.
-/
import Std.Data.HashMap
import RegAsm.Program.Statement
import RegAsm.Token.Stream

namespace RegAsm

open Machine
open Source (Position)

/-! ## 1. Productions -/

/-- The named productions. -/
inductive Rule where
  | label
  | localLabel
  | move
  | nullary (op : Opcode)
  | unary (op : Opcode)
  | binary (op : Opcode)
  | xor
  | data
  | times
  | immediate
  | register
  | name
  | indirectName
  | indirectRegister
  | indirectImmediate
  deriving DecidableEq, Repr

instance : Hashable Rule where
  hash
    | .label => 1
    | .localLabel => 2
    | .move => 3
    | .nullary op => 100 + op.code.toUInt64
    | .unary op => 200 + op.code.toUInt64
    | .binary op => 300 + op.code.toUInt64
    | .xor => 4
    | .data => 5
    | .times => 6
    | .immediate => 7
    | .register => 8
    | .name => 9
    | .indirectName => 10
    | .indirectRegister => 11
    | .indirectImmediate => 12

/-- What a production can have read. -/
inductive Product where
  | statement (s : Statement)
  | operand (o : Operand)
  deriving DecidableEq, Repr

/-- What was read where: for a place and a production, the product and the
place behind it. -/
structure Memo where
  /-- Whether anything is remembered at all. -/
  enabled : Bool
  entries : Std.HashMap (Nat × Rule) (Product × Nat)
  /-- How often a product was asked for that turned out to be of another
  kind. -/
  misfits : Nat

namespace Memo

/-- Nothing remembered yet. -/
def empty (enabled : Bool) : Memo := ⟨enabled, ∅, 0⟩

/-- What a production read at a place. -/
def find? (m : Memo) (index : Nat) (rule : Rule) : Option (Product × Nat) :=
  if m.enabled then m.entries[(index, rule)]? else none

/-- Remembers what a production read at a place. -/
def remember (m : Memo) (index : Nat) (rule : Rule) (product : Product) (stop : Nat) : Memo :=
  if m.enabled then { m with entries := m.entries.insert (index, rule) (product, stop) } else m

/-- Notes that a product was not of the kind that was asked for. -/
def misfit (m : Memo) : Memo := { m with misfits := m.misfits + 1 }

end Memo

/-- A production: it reads from the stream or fails, and may remember. -/
def Production (α : Type) := TokenStream → Memo → Option (α × TokenStream) × Memo

namespace Production

variable {α β : Type}

/-- Reads nothing. -/
def pure (a : α) : Production α := fun s memo => (some (a, s), memo)

/-- Always fails. -/
def fail : Production α := fun _ memo => (none, memo)

/-- Reads one thing, then what depends on it. -/
def bind (p : Production α) (f : α → Production β) : Production β := fun s memo =>
  match p s memo with
  | (some (a, s), memo) => f a s memo
  | (none, memo) => (none, memo)

instance : Monad Production where
  pure := pure
  bind := bind

/-- The first production that succeeds. -/
def firstOf : List (Production α) → Production α
  | [] => fail
  | p :: rest => fun s memo =>
    match p s memo with
    | (some r, memo) => (some r, memo)
    | (none, memo) => firstOf rest s memo

/-- Reads something, or nothing if that fails. -/
def optional (p : Production α) : Production (Option α) := fun s memo =>
  match p s memo with
  | (some (a, s), memo) => (some (some a, s), memo)
  | (none, memo) => (some (none, s), memo)

/-- The place of the token under the cursor. -/
def place : Production Position := fun s memo => (some (s.token.pos, s), memo)

/-- A token of a kind. -/
def take (kind : TokenKind) : Production Token := fun s memo => (s.take? kind, memo)

/-- A punctuation mark. -/
def symbol (text : String) : Production Unit := fun s memo =>
  ((s.symbol? text).map fun s => ((), s), memo)

/-- One of some keywords. -/
def keyword (ms : List Mnemonic) : Production Mnemonic := fun s memo => (s.mnemonic? ms, memo)

/-! ## 2. Remembering -/

/-- A kind of thing that can be remembered. -/
class Memorable (α : Type) where
  toProduct : α → Product
  ofProduct? : Product → Option α

instance : Memorable Statement where
  toProduct := .statement
  ofProduct?
    | .statement s => some s
    | .operand _ => none

instance : Memorable Operand where
  toProduct := .operand
  ofProduct?
    | .operand o => some o
    | .statement _ => none

/-- Reads a named production, from memory if it was read here before.  A
remembered product of another kind than the one asked for cannot be used. -/
def capture [Memorable α] (rule : Rule) (p : Production α) : Production α := fun s memo =>
  let here := s.cursor.index
  match memo.find? here rule with
  | some (product, stop) =>
    match Memorable.ofProduct? product with
    | some a => (some (a, s.advance (stop - here)), memo)
    | none => (none, memo.misfit)
  | none =>
    match p s memo with
    | (some (a, s), memo) =>
      (some (a, s), memo.remember here rule (Memorable.toProduct a) s.cursor.index)
    | (none, memo) => (none, memo)

/-- The first named production that succeeds. -/
def alternatives [Memorable α] (rules : List (Rule × Production α)) : Production α :=
  firstOf (rules.map fun (rule, p) => capture rule p)

/-! ## 3. Operands -/

/-- A number. -/
def immediate : Production Operand := do
  let t ← take .number
  return ⟨.immediate t.value, t.pos⟩

/-- A register.  Its number is the low byte of the token's index. -/
def register : Production Operand := do
  let t ← take .register
  return ⟨.register (.ofInt t.id), t.pos⟩

/-- A label with an optional leading dot. -/
def labelName : Production String := do
  let dot ← optional (symbol ".")
  let t ← take .identifier
  return if dot.isSome then "." ++ t.text else t.text

/-- A label used as a value. -/
def name : Production Operand := do
  let pos ← place
  let label ← labelName
  return ⟨.name label, pos⟩

/-- Something in parentheses. -/
def parenthesized (p : Production OperandForm) : Production Operand := do
  let pos ← place
  symbol "("
  let form ← p
  symbol ")"
  return ⟨form, pos⟩

/-- A label in parentheses. -/
def indirectName : Production Operand :=
  parenthesized do
    let label ← labelName
    return .indirectName label

/-- A register in parentheses. -/
def indirectRegister : Production Operand :=
  parenthesized do
    let t ← take .register
    return .indirectRegister (.ofInt t.id)

/-- A number in parentheses. -/
def indirectImmediate : Production Operand :=
  parenthesized do
    let t ← take .number
    return .indirectImmediate t.value

/-- An operand in any of its forms. -/
def operand : Production Operand :=
  alternatives
    [(.immediate, immediate), (.register, register), (.indirectName, indirectName),
     (.indirectRegister, indirectRegister), (.name, name),
     (.indirectImmediate, indirectImmediate)]

/-! ## 4. Statements -/

/-- A global label: a name and a colon. -/
def label : Production Statement := do
  let t ← take .identifier
  symbol ":"
  return .label t.text t.pos

/-- A local label: a dot, a name and a colon. -/
def localLabel : Production Statement := do
  let pos ← place
  symbol "."
  let t ← take .identifier
  symbol ":"
  return .localLabel ("." ++ t.text) pos

/-- An instruction without operands. -/
def nullary (m : Mnemonic) : Production Statement := do
  let pos ← place
  let m ← keyword [m]
  return .instruction m [] pos

/-- An instruction with one operand. -/
def unary (m : Mnemonic) : Production Statement := do
  let pos ← place
  let m ← keyword [m]
  let a ← operand
  return .instruction m [a] pos

/-- An instruction with two operands, under one of some keywords. -/
def binary (ms : List Mnemonic) : Production Statement := do
  let pos ← place
  let m ← keyword ms
  let a ← operand
  symbol ","
  let b ← operand
  return .instruction m [a, b] pos

/-- A comma and an operand. -/
def secondOperand : Production Operand := do
  symbol ","
  operand

/-- An exclusive or, with one operand or two.  If what follows a comma is no
operand, the comma is left to the next statement. -/
def xor : Production Statement := do
  let pos ← place
  let m ← keyword [.op .xor]
  let a ← operand
  let b ← optional secondOperand
  return .instruction m (a :: b.toList) pos

/-- One item of a data list: a string or a number. -/
def dataItem : Production Operand := fun s memo =>
  let t := s.token
  match t.kind with
  | .string => (some (⟨.text t.text, t.pos⟩, s.advance 1), memo)
  | .number => (some (⟨.immediate t.value, t.pos⟩, s.advance 1), memo)
  | _ => (none, memo)

/-- A list of up to `n` data items with commas between them. -/
def dataItems : Nat → Production (List Operand)
  | 0 => fail
  | n + 1 => do
    let item ← dataItem
    let comma ← optional (symbol ",")
    if comma.isSome then
      let rest ← dataItems n
      return item :: rest
    else
      return [item]

/-- A data directive with up to `n` items. -/
def data (n : Nat) : Production Statement := do
  let pos ← place
  let _ ← keyword [.db]
  let items ← dataItems n
  return .data items pos

/-- A repetition: a count and the statement to repeat. -/
def times (body : Production Statement) : Production Statement := do
  let pos ← place
  let _ ← keyword [.times]
  let count ← take .number
  let s ← body
  return .times count.value s pos

/-- The statement productions in the order they are tried. -/
def statementRules (n : Nat) (body : Production Statement) : List (Rule × Production Statement) :=
  let ops (ops : List Opcode) (rule : Opcode → Rule) (p : Opcode → Production Statement) :=
    ops.map fun op => (rule op, p op)
  let nullaries os := ops os .nullary fun op => nullary (.op op)
  let unaries os := ops os .unary fun op => unary (.op op)
  let binaries os := ops os .binary fun op => binary [.op op]
  [(.label, label),
   (.move, binary [.op .mov, .sizedMove .word, .sizedMove .dword, .sizedMove .qword])] ++
  nullaries [.hlt] ++ binaries [.inb] ++ unaries [.inc, .jmp] ++
  [(.data, data n), (.xor, xor)] ++
  binaries [.add] ++ nullaries [.ret] ++ unaries [.call] ++ binaries [.mul] ++ unaries [.je] ++
  binaries [.cmp] ++ unaries [.jl] ++ binaries [.outb] ++
  [(.times, times body), (.localLabel, localLabel)] ++
  nullaries [.sti, .cli] ++ unaries [.ldidt] ++ nullaries [.iret] ++ unaries [.calle]

/-- A statement.  Repetitions nest at most `n` deep, and a data list has at
most as many items; the number of tokens left is always enough. -/
def statement : Nat → Production Statement
  | 0 => fail
  | n + 1 => alternatives (statementRules n (statement n))

end Production

/-! ## 5. The parser -/

/-- A token at which no statement can be read. -/
structure ParseError where
  token : Token
  deriving DecidableEq, Repr

namespace ParseError

/-- Where the token stands. -/
def pos (e : ParseError) : Position := e.token.pos

/-- The wording of the error. -/
def message (e : ParseError) : String := e.pos.describe ++ ": unexpected " ++ e.token.describe

end ParseError

/-- A parser in the middle of its tokens. -/
structure Parser where
  stream : TokenStream
  memo : Memo

namespace Parser

/-- A parser at the front of some tokens, which remembers what it reads or
not. -/
def ofTokens (tokens : List Token) (remembers : Bool := true) : Parser :=
  ⟨.ofTokens tokens, .empty remembers⟩

/-- Reads up to `n` more statements and stops at the end token; `bound` bounds
what one statement can hold. -/
def statements (bound : Nat) (program : Array Statement) :
    Nat → Parser → Except ParseError (Array Statement) × Parser
  | 0, p => (.ok program, p)
  | n + 1, p =>
    if p.stream.token.kind = .eof then (.ok program, p)
    else
      match Production.statement bound p.stream p.memo with
      | (some (s, stream), memo) => statements bound (program.push s) n ⟨stream, memo⟩
      | (none, memo) => (.error ⟨p.stream.token⟩, { p with memo })

/-- Reads statements up to the end token.  If no statement can be read, the
parser stays at that token. -/
def parse (p : Parser) : Except ParseError (List Statement) × Parser :=
  let bound := p.stream.cursor.rest.length + 1
  let (result, p) := statements bound #[] bound p
  (result.map Array.toList, p)

end Parser

end RegAsm
