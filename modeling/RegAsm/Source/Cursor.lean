/-
RegAsm.Source.Cursor — a cursor over a sequence, with nested snapshots.

The cursor holds the items that are still ahead, how many lie behind, and the
line and column it stands at.  A snapshot remembers all three; going back
restores them, committing forgets the snapshot and stays.  Snapshots nest: the
last one taken is the first one closed.

To look ahead is to count on from the index, in words of 64 bits with a sign.
Far enough ahead the count wraps around to an index below zero, and the look
fails.
-/
import RegAsm.Source.Position

namespace RegAsm.Source

/-- What a snapshot remembers. -/
structure Mark (α : Type) where
  rest : List α
  index : Nat
  pos : Position

/-- Why an operation on a cursor fails. -/
inductive Cursor.Failure where
  /-- A snapshot is to be closed and none is open. -/
  | noSnapshot
  /-- The index of an item wrapped around. -/
  | index (i : Int64)
  /-- The index behind the last item of a range wrapped around. -/
  | range (stop : Int64)
  deriving DecidableEq, Repr

/-- The wording of the failure. -/
def Cursor.Failure.message : Cursor.Failure → String
  | .noSnapshot => "lexer: rollback or commit without snapshot"
  | .index i => "runtime error: index out of range [" ++ toString i.toInt ++ "]"
  | .range stop => "runtime error: slice bounds out of range [:" ++ toString stop.toInt ++ "]"

/-- A cursor over a sequence of items. -/
structure Cursor (α : Type) where
  /-- The items ahead. -/
  rest : List α
  /-- How many items lie behind. -/
  index : Nat
  /-- The place of the next item. -/
  pos : Position
  /-- The open snapshots, the last one first. -/
  marks : List (Mark α)
  /-- Whether an item ends its line. -/
  endsLine : α → Bool

namespace Cursor

variable {α : Type}

/-- A cursor at the front of a sequence. -/
def ofList (items : List α) (endsLine : α → Bool) : Cursor α :=
  ⟨items, 0, .start, [], endsLine⟩

/-- A cursor at the front of a text. -/
def ofText (text : List Char) : Cursor Char := ofList text (· == '\n')

/-- The number of items in the sequence. -/
def length (c : Cursor α) : Nat := c.index + c.rest.length

/-- Whether no item is ahead. -/
def atEnd (c : Cursor α) : Bool := c.rest.isEmpty

/-- The number of open snapshots. -/
def depth (c : Cursor α) : Nat := c.marks.length

/-- The item under the cursor. -/
def current? (c : Cursor α) : Option α := c.rest.head?

/-- The item under the cursor, and the cursor past it. -/
def consume? (c : Cursor α) : Option (α × Cursor α) :=
  match c.rest with
  | [] => none
  | item :: rest =>
    some (item, { c with rest, index := c.index + 1, pos := c.pos.next (c.endsLine item) })

/-- The cursor past up to `n` items; it stops at the end. -/
def advance : Nat → Cursor α → Cursor α
  | 0, c => c
  | n + 1, c =>
    match c.consume? with
    | some (_, c) => advance n c
    | none => c

/-- The index `n` places ahead of the cursor, in words. -/
def indexAhead (c : Cursor α) (n : Int64) : Int64 := Int64.ofNat c.index + n

/-- The item `n` places ahead of the cursor, if there is one. -/
def peek? (c : Cursor α) (n : Int64) : Except Failure (Option α) :=
  let i := c.indexAhead n
  if n < 0 ∨ (c.length : Int) ≤ i.toInt then .ok none
  else if i < 0 then .error (.index i)
  else .ok c.rest[i.toInt.toNat - c.index]?

/-- The next `n` items, if so many are ahead. -/
def peekRange? (c : Cursor α) (n : Int64) : Except Failure (Option (List α)) :=
  let stop := c.indexAhead n
  if n < 0 ∨ (c.length : Int) < stop.toInt then .ok none
  else if stop < 0 then .error (.range stop)
  else .ok (some (c.rest.take (stop.toInt.toNat - c.index)))

/-- Opens a snapshot of the cursor. -/
def snapshot (c : Cursor α) : Cursor α :=
  { c with marks := ⟨c.rest, c.index, c.pos⟩ :: c.marks }

/-- Goes back to the last snapshot and closes it, if one is open. -/
def rollback? (c : Cursor α) : Option (Cursor α) :=
  match c.marks with
  | [] => none
  | m :: marks => some { c with rest := m.rest, index := m.index, pos := m.pos, marks }

/-- Closes the last snapshot and stays, if one is open. -/
def commit? (c : Cursor α) : Option (Cursor α) :=
  match c.marks with
  | [] => none
  | _ :: marks => some { c with marks }

end Cursor

end RegAsm.Source
