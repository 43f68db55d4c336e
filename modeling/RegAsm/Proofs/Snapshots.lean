/-
RegAsm.Proofs.Snapshots — reading by moving one stream back and forth.

A production that fails gives no stream back, so whoever tried it goes on with
the stream they had.  A *reader* has only one stream: tokens taken by an attempt
that fails later are gone, unless a snapshot was opened before and is rolled
back.  Closing a snapshot where none is open ends everything without a result.

The grammar is written down again with readers, and each of them follows the
production of the same name: it reads and remembers the same, and every snapshot
it opens is closed again, by itself and once.  So the parser made of readers
always has a result, and it is that of the parser made of productions
(`Reader.parse?_eq`).

1. Readers.
2. The grammar.
3. A reader that follows a production.
4. Every reader follows its production.
5. The parser.
-/
import Mathlib
import RegAsm.Proofs.Backtracking
import RegAsm.Proofs.Memoization

namespace RegAsm

open Machine
open Source (Cursor Mark Position)

/-! ## 1. Readers -/

namespace TokenStream

/-- Opens a snapshot. -/
def snapshot (s : TokenStream) : TokenStream := { s with cursor := s.cursor.snapshot }

/-- Goes back to the last snapshot and closes it, if one is open. -/
def rollback? (s : TokenStream) : Option TokenStream :=
  s.cursor.rollback?.map fun cursor => { s with cursor }

/-- Closes the last snapshot and stays, if one is open. -/
def commit? (s : TokenStream) : Option TokenStream :=
  s.cursor.commit?.map fun cursor => { s with cursor }

end TokenStream

/-- A reader: it moves a stream, and says what it read, if anything.  There is no
result if a snapshot is closed and none is open. -/
def Reader (α : Type) := TokenStream → Memo → Option (Option α × TokenStream × Memo)

namespace Reader

variable {α β : Type}

/-- Reads nothing. -/
def pure (a : α) : Reader α := fun s memo => some (some a, s, memo)

/-- Always fails. -/
def fail : Reader α := fun s memo => some (none, s, memo)

/-- Reads one thing, then what depends on it. -/
def bind (r : Reader α) (f : α → Reader β) : Reader β := fun s memo =>
  match r s memo with
  | some (some a, s, memo) => f a s memo
  | some (none, s, memo) => some (none, s, memo)
  | none => none

instance : Monad Reader where
  pure := pure
  bind := bind

/-- The first reader that succeeds; each starts where the one before it left the
stream. -/
def firstOf : List (Reader α) → Reader α
  | [] => fail
  | r :: rest => fun s memo =>
    match r s memo with
    | some (some a, s, memo) => some (some a, s, memo)
    | some (none, s, memo) => firstOf rest s memo
    | none => none

/-- Reads something or nothing; the stream stays where the attempt left it. -/
def optional (r : Reader α) : Reader (Option α) := fun s memo =>
  (r s memo).map fun (a?, s, memo) => (some a?, s, memo)

/-- Reads under a snapshot, which is committed if something was read and rolled
back if not. -/
def bracketed (r : Reader α) : Reader α := fun s memo =>
  match r s.snapshot memo with
  | some (some a, s, memo) => s.commit?.map fun s => (some a, s, memo)
  | some (none, s, memo) => s.rollback?.map fun s => (none, s, memo)
  | none => none

/-- Takes the token under the cursor if it stands for something. -/
def step (g : Token → Option α) : Reader α := fun s memo =>
  match g s.token with
  | some a => some (some a, s.advance 1, memo)
  | none => some (none, s, memo)

/-- Reads a named production, from memory if it was read here before. -/
def capture [Production.Memorable α] (rule : Rule) (r : Reader α) : Reader α := fun s memo =>
  let here := s.cursor.index
  match memo.find? here rule with
  | some (product, stop) =>
    match Production.Memorable.ofProduct? product with
    | some a => some (some a, s.advance (stop - here), memo)
    | none => some (none, s, memo.misfit)
  | none =>
    match bracketed r s memo with
    | some (some a, s, memo) =>
      some (some a, s,
        memo.remember here rule (Production.Memorable.toProduct a) s.cursor.index)
    | some (none, s, memo) => some (none, s, memo)
    | none => none

/-- The first named production that succeeds. -/
def alternatives [Production.Memorable α] (rules : List (Rule × Reader α)) : Reader α :=
  firstOf (rules.map fun r => capture r.1 r.2)

/-! ## 2. The grammar -/

def place : Reader Position := fun s memo => some (some s.token.pos, s, memo)

def take (kind : TokenKind) : Reader Token :=
  step fun t => if t.kind = kind ∧ kind ≠ .eof then some t else none

def symbol (text : String) : Reader Unit :=
  step fun t => if t.kind = .symbol ∧ t.text = text then some () else none

def keyword (ms : List Mnemonic) : Reader Mnemonic :=
  step fun t => if t.kind = .mnemonic then ms.find? fun m => t.id = m.index else none

def immediate : Reader Operand := do
  let t ← take .number
  return ⟨.immediate t.value, t.pos⟩

def register : Reader Operand := do
  let t ← take .register
  return ⟨.register (.ofInt t.id), t.pos⟩

def labelName : Reader String := do
  let dot ← optional (symbol ".")
  let t ← take .identifier
  return if dot.isSome then "." ++ t.text else t.text

def name : Reader Operand := do
  let pos ← place
  let label ← labelName
  return ⟨.name label, pos⟩

def parenthesized (r : Reader OperandForm) : Reader Operand := do
  let pos ← place
  symbol "("
  let form ← r
  symbol ")"
  return ⟨form, pos⟩

def indirectName : Reader Operand :=
  parenthesized do
    let label ← labelName
    return .indirectName label

def indirectRegister : Reader Operand :=
  parenthesized do
    let t ← take .register
    return .indirectRegister (.ofInt t.id)

def indirectImmediate : Reader Operand :=
  parenthesized do
    let t ← take .number
    return .indirectImmediate t.value

def operand : Reader Operand :=
  alternatives
    [(.immediate, immediate), (.register, register), (.indirectName, indirectName),
     (.indirectRegister, indirectRegister), (.name, name),
     (.indirectImmediate, indirectImmediate)]

def label : Reader Statement := do
  let t ← take .identifier
  symbol ":"
  return .label t.text t.pos

def localLabel : Reader Statement := do
  let pos ← place
  symbol "."
  let t ← take .identifier
  symbol ":"
  return .localLabel ("." ++ t.text) pos

def nullary (m : Mnemonic) : Reader Statement := do
  let pos ← place
  let m ← keyword [m]
  return .instruction m [] pos

def unary (m : Mnemonic) : Reader Statement := do
  let pos ← place
  let m ← keyword [m]
  let a ← operand
  return .instruction m [a] pos

def binary (ms : List Mnemonic) : Reader Statement := do
  let pos ← place
  let m ← keyword ms
  let a ← operand
  symbol ","
  let b ← operand
  return .instruction m [a, b] pos

def secondOperand : Reader Operand := do
  symbol ","
  operand

/-- An exclusive or.  The comma of a second operand that is none is given back by
a snapshot of its own. -/
def xor : Reader Statement := do
  let pos ← place
  let m ← keyword [.op .xor]
  let a ← operand
  let b ← optional (bracketed secondOperand)
  return .instruction m (a :: b.toList) pos

def dataItem : Reader Operand := step Production.itemOf?

/-- A list of up to `n` data items.  A comma that is taken is not given back
here. -/
def dataItems : Nat → Reader (List Operand)
  | 0 => fail
  | n + 1 => do
    let item ← dataItem
    let comma ← optional (symbol ",")
    if comma.isSome then
      let rest ← dataItems n
      return item :: rest
    else
      return [item]

def data (n : Nat) : Reader Statement := do
  let pos ← place
  let _ ← keyword [.db]
  let items ← dataItems n
  return .data items pos

def times (body : Reader Statement) : Reader Statement := do
  let pos ← place
  let _ ← keyword [.times]
  let count ← take .number
  let s ← body
  return .times count.value s pos

/-- The reader of the statements with a name. -/
def statementOf (n : Nat) (body : Reader Statement) : Rule → Reader Statement
  | .label => label
  | .localLabel => localLabel
  | .move => binary [.op .mov, .sizedMove .word, .sizedMove .dword, .sizedMove .qword]
  | .nullary op => nullary (.op op)
  | .unary op => unary (.op op)
  | .binary op => binary [.op op]
  | .xor => xor
  | .data => data n
  | .times => times body
  | _ => fail

def statement : Nat → Reader Statement
  | 0 => fail
  | n + 1 =>
    alternatives (Production.statementOrder.map fun rule =>
      (rule, statementOf n (statement n) rule))

/-- Reads up to `n` more statements.  The error is at the token where the stream
was left. -/
def statements? (bound : Nat) (program : Array Statement) :
    Nat → Parser → Option (Except ParseError (Array Statement) × Parser)
  | 0, p => some (.ok program, p)
  | n + 1, p =>
    if p.stream.token.kind = .eof then some (.ok program, p)
    else
      match statement bound p.stream p.memo with
      | some (some s, stream, memo) => statements? bound (program.push s) n ⟨stream, memo⟩
      | some (none, stream, memo) => some (.error ⟨stream.token⟩, ⟨stream, memo⟩)
      | none => none

/-- Reads statements up to the end token. -/
def parse? (p : Parser) : Option (Except ParseError (List Statement) × Parser) :=
  let bound := p.stream.cursor.rest.length + 1
  (statements? bound #[] bound p).map fun (result, p) => (result.map Array.toList, p)

end Reader

/-! ## 3. Following a production -/

namespace TokenStream

/-- The stream with other snapshots open. -/
def under (marks : List (Mark Token)) (s : TokenStream) : TokenStream :=
  { s with cursor := { s.cursor with marks } }

/-- Two places of one stream, with the same snapshots open. -/
structure Beside (s' s : TokenStream) : Prop where
  eof : s'.eof = s.eof
  endsLine : s'.cursor.endsLine = s.cursor.endsLine
  marks : s'.cursor.marks = s.cursor.marks

theorem Beside.refl (s : TokenStream) : s.Beside s := ⟨rfl, rfl, rfl⟩

theorem Beside.trans {s s' s'' : TokenStream} (h : s''.Beside s') (h' : s'.Beside s) :
    s''.Beside s :=
  ⟨h.eof.trans h'.eof, h.endsLine.trans h'.endsLine, h.marks.trans h'.marks⟩

variable (marks : List (Mark Token)) (s : TokenStream)

theorem under_self : s.under s.cursor.marks = s := rfl

theorem Beside.under_marks {s' s : TokenStream} (h : s'.Beside s) :
    s'.under s.cursor.marks = s' := by
  rw [← h.marks, under_self]

theorem advance_under (n : Nat) : (s.under marks).advance n = (s.advance n).under marks := by
  induction n generalizing s with
  | zero => rfl
  | succ n ih =>
    obtain ⟨⟨rest, index, pos, opened, endsLine⟩, eof⟩ := s
    cases rest with
    | nil => rfl
    | cons t rest => exact ih ⟨⟨rest, index + 1, pos.next (endsLine t), opened, endsLine⟩, eof⟩

theorem beside_advance (n : Nat) : (s.advance n).Beside s := by
  induction n generalizing s with
  | zero => exact .refl s
  | succ n ih =>
    obtain ⟨⟨rest, index, pos, opened, endsLine⟩, eof⟩ := s
    cases rest with
    | nil => exact .refl _
    | cons t rest =>
      obtain ⟨h, h', h''⟩ := ih ⟨⟨rest, index + 1, pos.next (endsLine t), opened, endsLine⟩, eof⟩
      exact ⟨h, h', h''⟩

/-- A snapshot is one more mark, at the place of the stream. -/
theorem snapshot_under :
    (s.under marks).snapshot = s.under (s.cursor.here :: marks) := rfl

theorem commit?_under (m : Mark Token) : (s.under (m :: marks)).commit? = some (s.under marks) :=
  rfl

/-- Rolling back leads to the place of the snapshot. -/
theorem rollback?_under {s' s : TokenStream} (h : s'.Beside s) :
    (s'.under (s.cursor.here :: marks)).rollback? = some (s.under marks) := by
  obtain ⟨⟨rest', index', pos', opened', endsLine'⟩, eof'⟩ := s'
  obtain ⟨⟨rest, index, pos, opened, endsLine⟩, eof⟩ := s
  obtain ⟨rfl, rfl, -⟩ := h
  rfl

end TokenStream

/-- A reader follows a production: whatever snapshots are open, it reads the same
and remembers the same, and where it fails it leaves the stream at some place with
the same snapshots open. -/
class Reader.Follows {α : Type} (r : Reader α) (p : Production α) : Prop where
  read : ∀ {s s' : TokenStream} {memo memo' : Memo} {a : α}, p s memo = (some (a, s'), memo') →
    s'.Beside s ∧ ∀ marks, r (s.under marks) memo = some (some a, s'.under marks, memo')
  failed : ∀ {s : TokenStream} {memo memo' : Memo}, p s memo = (none, memo') →
    ∀ marks, ∃ s' : TokenStream, s'.Beside s ∧
      r (s.under marks) memo = some (none, s'.under marks, memo')

/-- A reader that follows a production and returns to where it was if it fails. -/
class Reader.Returns {α : Type} (r : Reader α) (p : Production α) : Prop extends
    Reader.Follows r p where
  back : ∀ {s : TokenStream} {memo memo' : Memo}, p s memo = (none, memo') →
    ∀ marks, r (s.under marks) memo = some (none, s.under marks, memo')

namespace Reader

variable {α β : Type}

/-- A reader that returns need not say where a failure leaves it. -/
theorem Returns.of_back {r : Reader α} {p : Production α}
    (read : ∀ {s s' : TokenStream} {memo memo' : Memo} {a : α}, p s memo = (some (a, s'), memo') →
      s'.Beside s ∧ ∀ marks, r (s.under marks) memo = some (some a, s'.under marks, memo'))
    (back : ∀ {s : TokenStream} {memo memo' : Memo}, p s memo = (none, memo') →
      ∀ marks, r (s.under marks) memo = some (none, s.under marks, memo')) : Returns r p where
  read := read
  failed h marks := ⟨_, .refl _, back h marks⟩
  back := back

instance (a : α) : Follows (Pure.pure a) (Pure.pure a : Production α) where
  read h := by
    cases h
    exact ⟨.refl _, fun _ => rfl⟩
  failed h := by cases h

instance : Returns fail (Production.fail : Production α) :=
  .of_back (fun h => by cases h) fun h _ => by cases h; rfl

instance : Follows place Production.place where
  read h := by
    cases h
    exact ⟨.refl _, fun _ => rfl⟩
  failed h := by cases h

instance {r : Reader α} {p : Production α} {f : α → Reader β} {g : α → Production β}
    [Follows r p] [∀ a, Follows (f a) (g a)] : Follows (r >>= f) (p >>= g) where
  read {s s' memo memo' b} h := by
    change Production.bind p g s memo = _ at h
    rw [Production.bind] at h
    cases hp : p s memo with
    | mk result mid =>
      cases result with
      | none => rw [hp] at h; cases h
      | some found =>
        obtain ⟨a, t⟩ := found
        rw [hp] at h
        obtain ⟨hbeside, hread⟩ := Follows.read (r := r) hp
        obtain ⟨hbeside', hread'⟩ := Follows.read (r := f a) h
        refine ⟨hbeside'.trans hbeside, fun marks => ?_⟩
        change Reader.bind r f _ _ = _
        simp only [Reader.bind, hread, hread']
  failed {s memo memo'} h marks := by
    change Production.bind p g s memo = _ at h
    rw [Production.bind] at h
    change ∃ s', _ ∧ Reader.bind r f _ _ = _
    cases hp : p s memo with
    | mk result mid =>
      cases result with
      | none =>
        rw [hp] at h
        cases h
        obtain ⟨s', hbeside, hfailed⟩ := Follows.failed (r := r) hp marks
        refine ⟨s', hbeside, ?_⟩
        simp only [Reader.bind, hfailed]
      | some found =>
        obtain ⟨a, t⟩ := found
        rw [hp] at h
        obtain ⟨hbeside, hread⟩ := Follows.read (r := r) hp
        obtain ⟨s', hbeside', hfailed⟩ := Follows.failed (r := f a) h marks
        refine ⟨s', hbeside'.trans hbeside, ?_⟩
        simp only [Reader.bind, hread, hfailed]

instance {c : Prop} [Decidable c] {r r' : Reader α} {p p' : Production α} [Follows r p]
    [Follows r' p'] : Follows (if c then r else r') (if c then p else p') := by
  split <;> infer_instance

/-- A step follows a production that looks at one token and takes it. -/
theorem returns_step {g : Token → Option α} {p : Production α}
    (hp : ∀ s memo, p s memo = ((g s.token).map fun a => (a, s.advance 1), memo)) :
    Returns (step g) p := by
  refine .of_back ?_ ?_
  · intro s s' memo memo' a h
    rw [hp] at h
    cases hg : g s.token with
    | none => rw [hg] at h; cases h
    | some b =>
      rw [hg] at h
      cases h
      refine ⟨s.beside_advance 1, fun marks => ?_⟩
      have htoken : g (s.under marks).token = some a := hg
      simp only [step, htoken, TokenStream.advance_under]
  · intro s memo memo' h marks
    rw [hp] at h
    cases hg : g s.token with
    | none =>
      rw [hg] at h
      cases h
      have htoken : g (s.under marks).token = none := hg
      simp only [step, htoken]
    | some b => rw [hg] at h; cases h

/-- An attempt that returns is an attempt that may be left out. -/
instance {r : Reader α} {p : Production α} [Returns r p] :
    Follows (optional r) (Production.optional p) where
  read {s s' memo memo' o} h := by
    rw [Production.optional] at h
    cases hp : p s memo with
    | mk result mid =>
      rw [hp] at h
      cases result with
      | none =>
        cases h
        refine ⟨.refl _, fun marks => ?_⟩
        simp only [optional, Returns.back (r := r) hp, Option.map_some]
      | some found =>
        cases h
        obtain ⟨hbeside, hread⟩ := Follows.read (r := r) hp
        refine ⟨hbeside, fun marks => ?_⟩
        simp only [optional, hread, Option.map_some]
  failed {s memo memo'} h := by
    rw [Production.optional] at h
    cases hp : p s memo with
    | mk result mid =>
      rw [hp] at h
      cases result <;> cases h

/-- Under a snapshot of its own, a reader returns from wherever it fails. -/
instance {r : Reader α} {p : Production α} [Follows r p] : Returns (bracketed r) p :=
  .of_back
    (fun {s s' memo memo' a} h => by
      obtain ⟨hbeside, hread⟩ := Follows.read (r := r) h
      refine ⟨hbeside, fun marks => ?_⟩
      simp only [bracketed, TokenStream.snapshot_under, hread, TokenStream.commit?_under,
        Option.map_some])
    (fun {s memo memo'} h marks => by
      obtain ⟨s', hbeside, hfailed⟩ := Follows.failed (r := r) h (s.cursor.here :: marks)
      simp only [bracketed, TokenStream.snapshot_under, hfailed,
        TokenStream.rollback?_under marks hbeside, Option.map_some])

instance [Production.Memorable α] {r : Reader α} {p : Production α} [Follows r p] (rule : Rule) :
    Returns (capture rule r) (Production.capture rule p) := by
  have hhere : ∀ (s : TokenStream) marks, (s.under marks).cursor.index = s.cursor.index :=
    fun _ _ => rfl
  refine .of_back ?_ ?_
  · intro s s' memo memo' a h
    rw [Production.capture] at h
    cases hfind : memo.find? s.cursor.index rule with
    | some entry =>
      obtain ⟨product, stop⟩ := entry
      simp only [hfind] at h
      cases hof : (Production.Memorable.ofProduct? product : Option α) with
      | none => rw [hof] at h; cases h
      | some b =>
        rw [hof] at h
        cases h
        refine ⟨s.beside_advance _, fun marks => ?_⟩
        simp only [capture, hhere, hfind, hof, TokenStream.advance_under]
    | none =>
      simp only [hfind] at h
      cases hp : p s memo with
      | mk result mid =>
        rw [hp] at h
        cases result with
        | none => cases h
        | some found =>
          cases h
          obtain ⟨hbeside, hread⟩ := Follows.read (r := bracketed r) hp
          refine ⟨hbeside, fun marks => ?_⟩
          simp only [capture, hhere, hfind, hread]
  · intro s memo memo' h marks
    rw [Production.capture] at h
    cases hfind : memo.find? s.cursor.index rule with
    | some entry =>
      obtain ⟨product, stop⟩ := entry
      simp only [hfind] at h
      cases hof : (Production.Memorable.ofProduct? product : Option α) with
      | none =>
        rw [hof] at h
        cases h
        simp only [capture, hhere, hfind, hof]
      | some b => rw [hof] at h; cases h
    | none =>
      simp only [hfind] at h
      cases hp : p s memo with
      | mk result mid =>
        rw [hp] at h
        cases result with
        | none =>
          cases h
          simp only [capture, hhere, hfind, Returns.back (r := bracketed r) hp]
        | some found => cases h

/-- Readers that return can be tried one after the other. -/
theorem returns_firstOf {rs : List (Reader α)} {ps : List (Production α)}
    (h : List.Forall₂ Returns rs ps) : Returns (firstOf rs) (Production.firstOf ps) := by
  induction h with
  | nil => exact inferInstanceAs (Returns fail Production.fail)
  | @cons r p rs ps hr _ ih =>
    refine .of_back ?_ ?_
    · intro s s' memo memo' a h
      rw [Production.firstOf] at h
      cases hp : p s memo with
      | mk result mid =>
        simp only [hp] at h
        cases result with
        | some found =>
          cases h
          obtain ⟨hbeside, hread⟩ := Follows.read (r := r) hp
          refine ⟨hbeside, fun marks => ?_⟩
          simp only [firstOf, hread]
        | none =>
          obtain ⟨hbeside, hread⟩ := ih.read h
          refine ⟨hbeside, fun marks => ?_⟩
          simp only [firstOf, hr.back hp, hread]
    · intro s memo memo' h marks
      rw [Production.firstOf] at h
      cases hp : p s memo with
      | mk result mid =>
        simp only [hp] at h
        cases result with
        | some found => cases h
        | none => simp only [firstOf, hr.back hp, ih.back h]

theorem returns_alternatives [Production.Memorable α] {rs : List (Rule × Reader α)}
    {ps : List (Rule × Production α)}
    (h : List.Forall₂ (fun r p => r.1 = p.1 ∧ Follows r.2 p.2) rs ps) :
    Returns (alternatives rs) (Production.alternatives ps) := by
  refine returns_firstOf ?_
  rw [List.forall₂_map_left_iff, List.forall₂_map_right_iff]
  refine h.imp fun r p hrp => ?_
  obtain ⟨rule, r⟩ := r
  obtain ⟨rule', p⟩ := p
  obtain ⟨rfl, hfollows⟩ := hrp
  exact inferInstanceAs (Returns (capture rule r) (Production.capture rule p))

/-! ## 4. Every reader follows its production -/

instance (kind : TokenKind) : Returns (take kind) (Production.take kind) :=
  returns_step fun s memo => by
    rw [Production.take, TokenStream.take?]
    split <;> rfl

instance (text : String) : Returns (symbol text) (Production.symbol text) :=
  returns_step fun s memo => by
    rw [Production.symbol, TokenStream.symbol?]
    split <;> rfl

instance (ms : List Mnemonic) : Returns (keyword ms) (Production.keyword ms) :=
  returns_step fun s memo => by
    rw [Production.keyword, TokenStream.mnemonic?]
    split <;> rfl

instance : Returns dataItem Production.dataItem :=
  returns_step fun s memo => by
    cases hkind : s.token.kind <;> simp [Production.dataItem, Production.itemOf?, hkind]

instance : Follows immediate Production.immediate := by
  unfold immediate Production.immediate
  infer_instance

instance : Follows register Production.register := by
  unfold register Production.register
  infer_instance

instance : Follows labelName Production.labelName := by
  unfold labelName Production.labelName
  infer_instance

instance : Follows name Production.name := by
  unfold name Production.name
  infer_instance

instance {r : Reader OperandForm} {p : Production OperandForm} [Follows r p] :
    Follows (parenthesized r) (Production.parenthesized p) := by
  unfold parenthesized Production.parenthesized
  infer_instance

instance : Follows indirectName Production.indirectName := by
  unfold indirectName Production.indirectName
  infer_instance

instance : Follows indirectRegister Production.indirectRegister := by
  unfold indirectRegister Production.indirectRegister
  infer_instance

instance : Follows indirectImmediate Production.indirectImmediate := by
  unfold indirectImmediate Production.indirectImmediate
  infer_instance

instance : Returns operand Production.operand := by
  refine returns_alternatives ?_
  simp only [List.forall₂_cons, List.forall₂_nil_left_iff, true_and]
  exact ⟨inferInstance, inferInstance, inferInstance, inferInstance, inferInstance,
    inferInstance, trivial⟩

instance : Follows label Production.label := by
  unfold label Production.label
  infer_instance

instance : Follows localLabel Production.localLabel := by
  unfold localLabel Production.localLabel
  infer_instance

instance (m : Mnemonic) : Follows (nullary m) (Production.nullary m) := by
  unfold nullary Production.nullary
  infer_instance

instance (m : Mnemonic) : Follows (unary m) (Production.unary m) := by
  unfold unary Production.unary
  infer_instance

instance (ms : List Mnemonic) : Follows (binary ms) (Production.binary ms) := by
  unfold binary Production.binary
  infer_instance

instance : Follows secondOperand Production.secondOperand := by
  unfold secondOperand Production.secondOperand
  infer_instance

instance : Follows xor Production.xor := by
  unfold xor Production.xor
  infer_instance

instance follows_dataItems (n : Nat) : Follows (dataItems n) (Production.dataItems n) := by
  induction n with
  | zero => exact inferInstanceAs (Follows fail Production.fail)
  | succ n ih =>
    unfold dataItems Production.dataItems
    infer_instance

instance (n : Nat) : Follows (data n) (Production.data n) := by
  unfold data Production.data
  infer_instance

instance {r : Reader Statement} {p : Production Statement} [Follows r p] :
    Follows (times r) (Production.times p) := by
  unfold times Production.times
  infer_instance

theorem follows_statementOf (n : Nat) {r : Reader Statement} {p : Production Statement}
    [Follows r p] (rule : Rule) :
    Follows (statementOf n r rule) (Production.statementOf n p rule) := by
  cases rule <;> simp only [statementOf, Production.statementOf] <;> infer_instance

/-- A statement is read as its production says, and where none can be read the
stream is as it was. -/
theorem returns_statement (n : Nat) : Returns (statement n) (Production.statement n) := by
  induction n with
  | zero => exact inferInstanceAs (Returns fail Production.fail)
  | succ n ih =>
    rw [statement, Production.statement, Production.statementRules_eq]
    refine returns_alternatives ?_
    rw [List.forall₂_map_left_iff, List.forall₂_map_right_iff, List.forall₂_same]
    exact fun rule _ => ⟨rfl, follows_statementOf n rule⟩

/-! ## 5. The parser -/

theorem statements?_eq (bound n : Nat) (acc : Array Statement) (p : Parser) :
    statements? bound acc n p = some (Parser.statements bound acc n p) := by
  induction n generalizing acc p with
  | zero => rfl
  | succ n ih =>
    obtain ⟨s, memo⟩ := p
    have hstatement := returns_statement bound
    rw [statements?, Parser.statements]
    by_cases hkind : s.token.kind = .eof
    · rw [if_pos hkind, if_pos hkind]
    · rw [if_neg hkind, if_neg hkind]
      cases hp : Production.statement bound s memo with
      | mk result memo' =>
        cases result with
        | none =>
          have hback := hstatement.back hp s.cursor.marks
          rw [TokenStream.under_self] at hback
          simp only [hback]
        | some found =>
          obtain ⟨a, s'⟩ := found
          obtain ⟨hbeside, hread⟩ := hstatement.read hp
          have hread := hread s.cursor.marks
          rw [TokenStream.under_self, hbeside.under_marks] at hread
          simp only [hread, ih]

/-- A parser that goes back by snapshots does what the parser does, whatever
snapshots are open: no snapshot is missing when one is to be closed, and the same
ones are open at the end. -/
theorem parse?_eq (p : Parser) : parse? p = some p.parse := by
  rw [parse?, Parser.parse, statements?_eq]
  rfl

end Reader

end RegAsm
