/-
RegAsm.Proofs.Backtracking — where a cursor stands after any operations.

A cursor keeps an index, a place and a stack of marks, and different operations
change them.  Seen as one more mark on top of the others, the cursor and its marks
form a stack: each entry stands at the place that is counted in the items in front
of its index, and none lies further on than the one above it.  Every operation
keeps this, and so does a recognizer that goes over characters and then refuses.

1. Operations.
2. What holds of a cursor and its marks.
3. One operation.
4. Reading a token.
5. Any operations from the start.
-/
import Mathlib
import RegAsm.Proofs.Cursor
import RegAsm.Token.Recognizer

namespace RegAsm

open Source

/-! ## 1. Operations -/

/-- An operation on a cursor over any items. -/
inductive CursorOp where
  | consume
  | advance (n : Int64)
  | peek (n : Int64)
  | peekRange (n : Int64)
  | snapshot
  | rollback
  | commit
  deriving DecidableEq, Repr

/-- What an operation answers. -/
inductive CursorAnswer (α : Type) where
  | done
  | item (item? : Option α)
  | items (items? : Option (List α))
  | token (token? : Option Token)
  | failed (failure : Cursor.Failure)

/-- Reads one token at a cursor under a snapshot: goes as far as the recognizer
goes, and back again unless it accepts and went over something.  There is no
result if the snapshot is not there to be closed. -/
def Recognizer.readAt? (r : Recognizer) (c : Cursor Char) :
    Option (Option Token × Cursor Char) :=
  let a := r c.rest
  let c' := c.snapshot.advance a.taken
  if a.accepted = false ∨ c'.index = c.index then c'.rollback?.map (none, ·)
  else c'.commit?.map (some a.token, ·)

/-- An operation on a cursor over a text. -/
inductive SourceOp where
  | plain (op : CursorOp)
  | read (r : Recognizer)

namespace Source.Cursor

variable {α : Type}

/-- Performs an operation.  One that fails leaves the cursor as it is. -/
def perform (c : Cursor α) : CursorOp → CursorAnswer α × Cursor α
  | .consume =>
    match c.consume? with
    | some (item, c') => (.item (some item), c')
    | none => (.item none, c)
  | .advance n => (.done, c.advance n.toInt.toNat)
  | .peek n =>
    match c.peek? n with
    | .ok item? => (.item item?, c)
    | .error failure => (.failed failure, c)
  | .peekRange n =>
    match c.peekRange? n with
    | .ok items? => (.items items?, c)
    | .error failure => (.failed failure, c)
  | .snapshot => (.done, c.snapshot)
  | .rollback =>
    match c.rollback? with
    | some c' => (.done, c')
    | none => (.failed .noSnapshot, c)
  | .commit =>
    match c.commit? with
    | some c' => (.done, c')
    | none => (.failed .noSnapshot, c)

/-- Performs an operation on a cursor over a text. -/
def performSource (c : Cursor Char) : SourceOp → CursorAnswer Char × Cursor Char
  | .plain op => c.perform op
  | .read r =>
    match r.readAt? c with
    | some (token?, c') => (.token token?, c')
    | none => (.failed .noSnapshot, c)

/-- The cursor after some operations. -/
def after (c : Cursor α) (ops : List CursorOp) : Cursor α :=
  ops.foldl (fun c op => (c.perform op).2) c

/-- The cursor over a text after some operations. -/
def afterSource (c : Cursor Char) (ops : List SourceOp) : Cursor Char :=
  ops.foldl (fun c op => (c.performSource op).2) c

end Source.Cursor

/-! ## 2. A cursor and its marks -/

namespace Source

variable {α : Type} {items : List α} {endsLine : α → Bool}

/-- A mark stands at an item, or behind the last one, at the place that is counted
in the items in front of it. -/
structure Mark.Stands (items : List α) (endsLine : α → Bool) (m : Mark α) : Prop where
  rest : m.rest = items.drop m.index
  inside : m.index ≤ items.length
  place : m.pos = placeAt endsLine items m.index

/-- The mark that a snapshot of the cursor would leave. -/
def Cursor.here (c : Cursor α) : Mark α := ⟨c.rest, c.index, c.pos⟩

/-- The cursor and its marks stand where they should, and none is further on than
the ones taken after it. -/
structure Cursor.Consistent (items : List α) (endsLine : α → Bool) (c : Cursor α) : Prop where
  lines : c.endsLine = endsLine
  stands : ∀ m ∈ c.here :: c.marks, m.Stands items endsLine
  ordered : (c.here :: c.marks).Pairwise fun m earlier => earlier.index ≤ m.index

namespace Cursor

variable {c : Cursor α}

theorem consistent_ofList (items : List α) (endsLine : α → Bool) :
    (ofList items endsLine).Consistent items endsLine := by
  refine ⟨rfl, ?_, List.pairwise_singleton _ _⟩
  intro m hm
  obtain rfl := List.mem_singleton.mp hm
  exact ⟨rfl, Nat.zero_le _, rfl⟩

/-! ## 3. One operation -/

/-- A cursor that moves on stands at the place of the item it comes to. -/
theorem stands_advance (n : Nat) (h : c.here.Stands items c.endsLine) :
    (c.advance n).here.Stands items c.endsLine := by
  induction n generalizing c with
  | zero => exact h
  | succ n ih =>
    obtain ⟨rest, index, pos, marks, endsLine⟩ := c
    cases rest with
    | nil => exact h
    | cons x xs =>
      obtain ⟨hrest, hinside, hplace⟩ := h
      have hdrop : items.drop index = x :: xs := hrest.symm
      -- One item on, the place is that of the next item.
      have hnext : Mark.Stands items endsLine ⟨xs, index + 1, pos.next (endsLine x)⟩ := by
        refine ⟨?_, ?_, ?_⟩
        · rw [← List.drop_drop, hdrop, List.drop_succ_cons, List.drop_zero]
        · have hlen := congrArg List.length hdrop
          rw [List.length_drop, List.length_cons] at hlen
          show index + 1 ≤ items.length
          omega
        · rw [placeAt_succ endsLine hdrop]
          exact congrArg (Position.next · (endsLine x)) hplace
      exact ih (c := ⟨xs, index + 1, pos.next (endsLine x), marks, endsLine⟩) hnext

theorem Consistent.advance (h : c.Consistent items endsLine) (n : Nat) :
    (c.advance n).Consistent items endsLine := by
  obtain ⟨hmarks, hends⟩ := advance_frame n c
  have hordered := List.pairwise_cons.mp h.ordered
  have hstands := List.forall_mem_cons.mp h.stands
  refine ⟨hends.trans h.lines, ?_, ?_⟩
  · rw [hmarks]
    refine List.forall_mem_cons.mpr ⟨?_, hstands.2⟩
    have hhere := stands_advance n (h.lines.symm ▸ hstands.1)
    exact h.lines ▸ hhere
  · rw [hmarks]
    refine List.pairwise_cons.mpr ⟨fun m hm => ?_, hordered.2⟩
    exact (hordered.1 m hm).trans (index_le_advance n c)

theorem Consistent.snapshot (h : c.Consistent items endsLine) :
    c.snapshot.Consistent items endsLine := by
  refine ⟨h.lines, ?_, ?_⟩
  · exact List.forall_mem_cons.mpr ⟨h.stands _ List.mem_cons_self, h.stands⟩
  · refine List.pairwise_cons.mpr ⟨fun m hm => ?_, h.ordered⟩
    rcases List.mem_cons.mp hm with rfl | hm
    · exact Nat.le_refl _
    · exact (List.pairwise_cons.mp h.ordered).1 m hm

theorem Consistent.rollback {c' : Cursor α} (h : c.Consistent items endsLine)
    (hc : c.rollback? = some c') : c'.Consistent items endsLine := by
  obtain ⟨rest, index, pos, marks, ends⟩ := c
  cases marks with
  | nil => cases hc
  | cons m marks =>
    cases hc
    exact ⟨h.lines, (List.forall_mem_cons.mp h.stands).2, (List.pairwise_cons.mp h.ordered).2⟩

theorem Consistent.commit {c' : Cursor α} (h : c.Consistent items endsLine)
    (hc : c.commit? = some c') : c'.Consistent items endsLine := by
  obtain ⟨rest, index, pos, marks, ends⟩ := c
  cases marks with
  | nil => cases hc
  | cons m marks =>
    cases hc
    have hfewer : List.Sublist (here ⟨rest, index, pos, marks, ends⟩ :: marks)
        (here ⟨rest, index, pos, m :: marks, ends⟩ :: m :: marks) :=
      (List.sublist_cons_self m marks).cons_cons _
    exact ⟨h.lines, fun m' hm' => h.stands m' (hfewer.subset hm'), h.ordered.sublist hfewer⟩

theorem Consistent.perform (h : c.Consistent items endsLine) (op : CursorOp) :
    (c.perform op).2.Consistent items endsLine := by
  cases op with
  | consume =>
    -- To consume an item is to move on by one.
    have hstep : (c.perform .consume).2 = c.advance 1 := by
      unfold Cursor.perform Cursor.advance
      cases c.consume? <;> rfl
    exact hstep ▸ h.advance 1
  | advance n => exact h.advance n.toInt.toNat
  | peek n =>
    simp only [Cursor.perform]
    cases c.peek? n <;> exact h
  | peekRange n =>
    simp only [Cursor.perform]
    cases c.peekRange? n <;> exact h
  | snapshot => exact h.snapshot
  | rollback =>
    unfold Cursor.perform
    cases hc : c.rollback? with
    | none => exact h
    | some c' => exact h.rollback hc
  | commit =>
    unfold Cursor.perform
    cases hc : c.commit? with
    | none => exact h
    | some c' => exact h.commit hc

/-- The index ahead is below zero, for a step that is not, exactly if it wraps
around. -/
theorem indexAhead_wraps_iff (h : c.length < 2 ^ 63) (n : Int64) :
    2 ^ 63 ≤ (c.index : Int) + n.toInt ↔ ¬ n < 0 ∧ c.indexAhead n < 0 := by
  have hlt : c.index < 2 ^ 63 := Nat.lt_of_le_of_lt (Nat.le_add_right _ _) h
  have hindex : (Int64.ofNat c.index).toInt = c.index := Int64.toInt_ofNat_of_lt hlt
  have hlow := n.le_toInt
  have hhigh := n.toInt_lt
  rw [Int64.lt_iff_toInt_lt, Int64.lt_iff_toInt_lt, indexAhead, Int64.toInt_add, hindex, Int.bmod]
  simp only [Int64.toInt_zero]
  omega

/-- To look ahead fails exactly if the index wraps around, if an index below zero does
not count as one behind the sequence. -/
theorem look_eq_error_iff {β : Type} (h : c.length < 2 ^ 63) {n : Int64} {behind : Prop}
    [Decidable behind] (hbehind : c.indexAhead n < 0 → ¬ behind) {nothing found : β}
    {f failure : Failure} :
    (if n < 0 ∨ behind then .ok nothing else if c.indexAhead n < 0 then .error f else .ok found) =
        (.error failure : Except Failure β) ↔
      2 ^ 63 ≤ (c.index : Int) + n.toInt ∧ failure = f := by
  rw [indexAhead_wraps_iff h]
  by_cases hn : n < 0
  · simp [hn]
  · by_cases hneg : c.indexAhead n < 0
    · simp [hn, hneg, hbehind hneg, eq_comm]
    · by_cases hp : behind <;> simp [hn, hneg, hp]

theorem peek?_eq_error_iff (h : c.length < 2 ^ 63) {n : Int64} {failure : Failure} :
    c.peek? n = .error failure ↔
      2 ^ 63 ≤ (c.index : Int) + n.toInt ∧ failure = .index (c.indexAhead n) := by
  refine look_eq_error_iff h fun hneg => ?_
  rw [Int64.lt_iff_toInt_lt, Int64.toInt_zero] at hneg
  omega

theorem peekRange?_eq_error_iff (h : c.length < 2 ^ 63) {n : Int64} {failure : Failure} :
    c.peekRange? n = .error failure ↔
      2 ^ 63 ≤ (c.index : Int) + n.toInt ∧ failure = .range (c.indexAhead n) := by
  refine look_eq_error_iff h fun hneg => ?_
  rw [Int64.lt_iff_toInt_lt, Int64.toInt_zero] at hneg
  omega

/-- What makes an operation fail: no snapshot is there to be closed, or an index
ahead wraps around. -/
inductive Fails (c : Cursor α) : CursorOp → Failure → Prop where
  | rollback (unmarked : c.depth = 0) : Fails c .rollback .noSnapshot
  | commit (unmarked : c.depth = 0) : Fails c .commit .noSnapshot
  | peek {n : Int64} (wraps : 2 ^ 63 ≤ (c.index : Int) + n.toInt) :
    Fails c (.peek n) (.index (c.indexAhead n))
  | peekRange {n : Int64} (wraps : 2 ^ 63 ≤ (c.index : Int) + n.toInt) :
    Fails c (.peekRange n) (.range (c.indexAhead n))

/-- An operation that fails leaves the cursor as it is. -/
theorem perform_of_failed {op : CursorOp} {failure : Failure}
    (h : (c.perform op).1 = .failed failure) : (c.perform op).2 = c := by
  cases op with
  | consume => cases hc : c.consume? <;> simp [Cursor.perform, hc] at h
  | peek n =>
    simp only [Cursor.perform]
    cases c.peek? n <;> rfl
  | peekRange n =>
    simp only [Cursor.perform]
    cases c.peekRange? n <;> rfl
  | rollback => cases hc : c.rollback? <;> simp [Cursor.perform, hc] at h ⊢
  | commit => cases hc : c.commit? <;> simp [Cursor.perform, hc] at h ⊢
  | advance n => cases h
  | snapshot => cases h

theorem perform_failed_iff (h : c.length < 2 ^ 63) (op : CursorOp) (failure : Failure) :
    (c.perform op).1 = .failed failure ↔ c.Fails op failure := by
  unfold Cursor.perform
  constructor
  · intro hfailed
    cases op with
    | consume => cases hc : c.consume? <;> simp [hc] at hfailed
    | peek n =>
      cases hc : c.peek? n with
      | ok item? => simp [hc] at hfailed
      | error f =>
        simp only [hc, CursorAnswer.failed.injEq] at hfailed
        obtain ⟨hwraps, rfl⟩ := (peek?_eq_error_iff h).mp (hfailed ▸ hc)
        exact .peek hwraps
    | peekRange n =>
      cases hc : c.peekRange? n with
      | ok items? => simp [hc] at hfailed
      | error f =>
        simp only [hc, CursorAnswer.failed.injEq] at hfailed
        obtain ⟨hwraps, rfl⟩ := (peekRange?_eq_error_iff h).mp (hfailed ▸ hc)
        exact .peekRange hwraps
    | rollback =>
      cases hmarks : c.marks with
      | nil =>
        simp only [rollback?, hmarks, CursorAnswer.failed.injEq] at hfailed
        exact hfailed ▸ .rollback (congrArg List.length hmarks)
      | cons m marks => simp [rollback?, hmarks] at hfailed
    | commit =>
      cases hmarks : c.marks with
      | nil =>
        simp only [commit?, hmarks, CursorAnswer.failed.injEq] at hfailed
        exact hfailed ▸ .commit (congrArg List.length hmarks)
      | cons m marks => simp [commit?, hmarks] at hfailed
    | _ => cases hfailed
  · intro hfails
    cases hfails with
    | rollback hdepth => simp [rollback?, List.length_eq_zero_iff.mp hdepth]
    | commit hdepth => simp [commit?, List.length_eq_zero_iff.mp hdepth]
    | peek hwraps => simp only [(peek?_eq_error_iff h).mpr ⟨hwraps, rfl⟩]
    | peekRange hwraps => simp only [(peekRange?_eq_error_iff h).mpr ⟨hwraps, rfl⟩]

end Cursor

end Source

/-! ## 4. Reading a token -/

namespace Source.Cursor

variable {α : Type}

/-- A snapshot does not change how a cursor moves on. -/
theorem advance_snapshot (n : Nat) (c : Cursor α) :
    c.snapshot.advance n = { c.advance n with marks := c.here :: c.marks } := by
  have hmarks : ∀ (n : Nat) (c : Cursor α) (marks : List (Mark α)),
      advance n { c with marks } = { c.advance n with marks } := by
    intro n
    induction n with
    | zero => exact fun c marks => rfl
    | succ n ih =>
      intro c marks
      obtain ⟨rest, index, pos, older, endsLine⟩ := c
      cases rest with
      | nil => rfl
      | cons x xs => exact ih ⟨xs, index + 1, pos.next (endsLine x), older, endsLine⟩ marks
  exact hmarks n c (c.here :: c.marks)

theorem rollback_advance_snapshot (n : Nat) (c : Cursor α) :
    (c.snapshot.advance n).rollback? = some c := by
  rw [advance_snapshot, rollback?, (advance_frame n c).2]
  rfl

theorem commit_advance_snapshot (n : Nat) (c : Cursor α) :
    (c.snapshot.advance n).commit? = some (c.advance n) := by
  rw [advance_snapshot, commit?, ← (advance_frame n c).1]

/-- A move goes nowhere if it is one over no items, or if none is ahead. -/
theorem index_advance_eq_iff (n : Nat) (c : Cursor α) :
    (c.advance n).index = c.index ↔ n = 0 ∨ c.rest = [] := by
  obtain ⟨rest, index, pos, marks, endsLine⟩ := c
  cases n with
  | zero => simp [advance]
  | succ n =>
    cases rest with
    | nil => simp [advance, consume?]
    | cons x xs =>
      have hle := index_le_advance n ⟨xs, index + 1, pos.next (endsLine x), marks, endsLine⟩
      simp only [advance, consume?, Nat.add_eq_zero_iff, one_ne_zero, and_false, reduceCtorEq,
        or_self, iff_false]
      exact Nat.ne_of_gt hle

end Source.Cursor

namespace Recognizer

/-- The snapshot under which a token is read is there to be closed, and is closed
in the end: the cursor has moved on if the answer of the recognizer counts, and is
where it was otherwise. -/
theorem readAt?_spec (r : Recognizer) (c : Cursor Char) :
    ∃ token? c', r.readAt? c = some (token?, c') ∧ r.matchAt? c = token?.map (·, c') ∧
      (token? = none → c' = c) ∧ ∃ n, c' = c.advance n := by
  have hindex : (c.snapshot.advance (r c.rest).taken).index = c.index ↔
      (r c.rest).taken = 0 ∨ c.rest = [] := by
    rw [Cursor.advance_snapshot]
    exact Cursor.index_advance_eq_iff _ c
  simp only [readAt?, hindex, Cursor.rollback_advance_snapshot, Cursor.commit_advance_snapshot,
    matchAt?, match?]
  by_cases hrefused : (r c.rest).accepted = false ∨ (r c.rest).taken = 0 ∨ c.rest = []
  · refine ⟨none, c, ?_, ?_, fun _ => rfl, 0, rfl⟩
    · rw [if_pos hrefused, Option.map_some]
    · rcases hrefused with h | h | h <;> simp [h]
  · refine ⟨some (r c.rest).token, c.advance (r c.rest).taken, ?_, ?_,
      fun h => absurd h (Option.some_ne_none _), _, rfl⟩
    · rw [if_neg hrefused, Option.map_some]
    · rw [not_or, not_or, Bool.not_eq_false] at hrefused
      simp [hrefused.1, hrefused.2.2, Nat.pos_of_ne_zero hrefused.2.1]

end Recognizer

/-! ## 5. Any operations from the start -/

namespace Source.Cursor

theorem Consistent.performSource {text : List Char} {endsLine : Char → Bool} {c : Cursor Char}
    (h : c.Consistent text endsLine) (op : SourceOp) :
    (c.performSource op).2.Consistent text endsLine := by
  cases op with
  | plain op => exact h.perform op
  | read r =>
    obtain ⟨token?, c', hread, -, -, n, rfl⟩ := r.readAt?_spec c
    simp only [Cursor.performSource, hread]
    exact h.advance n

theorem Consistent.after {α : Type} {items : List α} {endsLine : α → Bool} {c : Cursor α}
    (h : c.Consistent items endsLine) (ops : List CursorOp) :
    (c.after ops).Consistent items endsLine := by
  induction ops generalizing c with
  | nil => exact h
  | cons op ops ih => exact ih (h.perform op)

theorem Consistent.afterSource {text : List Char} {endsLine : Char → Bool} {c : Cursor Char}
    (h : c.Consistent text endsLine) (ops : List SourceOp) :
    (c.afterSource ops).Consistent text endsLine := by
  induction ops generalizing c with
  | nil => exact h
  | cons op ops ih => exact ih (h.performSource op)

/-- Over any items, whatever ends a line there or if nothing does, and over any
text, a cursor and its marks stand where they should after any operations.  To
read a token leaves the snapshots as they are, and if there is none the whole
cursor.  What fails changes nothing.  Over items that can be counted in words of
64 bits, closing a snapshot fails exactly if none is open, looking ahead fails
exactly if the index ahead wraps around, and nothing else fails. -/
theorem consistent_after_operations :
    (∀ (α : Type) (items : List α) (endsLine : α → Bool) (ops : List CursorOp),
      ((ofList items endsLine).after ops).Consistent items endsLine) ∧
    (∀ (text : List Char) (ops : List SourceOp),
      ((ofText text).afterSource ops).Consistent text (· == '\n')) ∧
    (∀ (r : Recognizer) (c : Cursor Char), ∃ token? c',
      r.readAt? c = some (token?, c') ∧ r.matchAt? c = token?.map (·, c') ∧
      c'.depth = c.depth ∧ (token? = none → c' = c)) ∧
    ∀ (α : Type) (c : Cursor α) (op : CursorOp) (failure : Failure),
      ((c.perform op).1 = .failed failure → (c.perform op).2 = c) ∧
      (c.length < 2 ^ 63 → ((c.perform op).1 = .failed failure ↔ c.Fails op failure)) := by
  refine ⟨?_, ?_, ?_, ?_⟩
  · intro α items endsLine ops
    exact (consistent_ofList items endsLine).after ops
  · intro text ops
    exact (consistent_ofList text (· == '\n')).afterSource ops
  · intro r c
    obtain ⟨token?, c', hread, hmatch, hnone, n, rfl⟩ := r.readAt?_spec c
    have hdepth : (c.advance n).depth = c.depth := congrArg List.length (advance_frame n c).1
    exact ⟨token?, _, hread, hmatch, hdepth, hnone⟩
  · intro α c op failure
    exact ⟨perform_of_failed, fun h => perform_failed_iff h op failure⟩

/-- Behind the first of two characters, a look as far ahead as a word can say
wraps around to the lowest index there is. -/
theorem consistent_after_operations_farAhead :
    (((ofText ['a', 'b']).after [.consume]).perform (.peek 9223372036854775807)).1 =
        .failed (.index (-9223372036854775808)) ∧
      (((ofText ['a', 'b']).after [.consume]).perform (.peekRange 9223372036854775807)).1 =
        .failed (.range (-9223372036854775808)) ∧
      (((ofText ['a', 'b']).after [.consume]).perform (.peek 9223372036854775806)).1 =
        .item none := by
  obtain ⟨-, -, -, hfails⟩ := consistent_after_operations
  have hlength : ((ofText ['a', 'b']).after [.consume]).length < 2 ^ 63 := by decide
  refine ⟨?_, ?_, rfl⟩
  · exact ((hfails _ _ _ _).2 hlength).mpr (.peek (by decide))
  · exact ((hfails _ _ _ _).2 hlength).mpr (.peekRange (by decide))

end Source.Cursor

end RegAsm
