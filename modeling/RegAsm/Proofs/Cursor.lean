/-
RegAsm.Proofs.Cursor — moving a cursor over a sequence.

A cursor that moves on drops items from those ahead and counts them, and two
moves in a row are one.  The place of an item is counted in the items in front of
it.
-/
import Mathlib
import RegAsm.Source.Cursor

namespace RegAsm

namespace Source.Cursor

variable {α : Type}

theorem rest_advance (n : Nat) (c : Cursor α) : (c.advance n).rest = c.rest.drop n := by
  induction n generalizing c with
  | zero => rfl
  | succ n ih =>
    obtain ⟨rest, index, pos, marks, endsLine⟩ := c
    cases rest with
    | nil => rfl
    | cons x xs => exact ih _

theorem index_advance (n : Nat) (c : Cursor α) (h : n ≤ c.rest.length) :
    (c.advance n).index = c.index + n := by
  induction n generalizing c with
  | zero => rfl
  | succ n ih =>
    obtain ⟨rest, index, pos, marks, endsLine⟩ := c
    cases rest with
    | nil => simp at h
    | cons x xs =>
      refine (ih _ ?_).trans ?_
      · simpa using h
      · exact Nat.add_right_comm index 1 n

theorem advance_add (m n : Nat) (c : Cursor α) : c.advance (m + n) = (c.advance m).advance n := by
  induction m generalizing c with
  | zero => rw [Nat.zero_add]; rfl
  | succ m ih =>
    obtain ⟨rest, index, pos, marks, endsLine⟩ := c
    rw [Nat.succ_add]
    cases rest with
    | nil => cases n <;> rfl
    | cons x xs => exact ih _

theorem index_le_advance (n : Nat) (c : Cursor α) : c.index ≤ (c.advance n).index := by
  induction n generalizing c with
  | zero => exact Nat.le_refl _
  | succ n ih =>
    obtain ⟨rest, index, pos, marks, endsLine⟩ := c
    cases rest with
    | nil => exact Nat.le_refl _
    | cons x xs =>
      have hnext := ih ⟨xs, index + 1, pos.next (endsLine x), marks, endsLine⟩
      exact (Nat.le_succ index).trans hnext

/-- A move changes neither the snapshots nor what ends a line. -/
theorem advance_frame (n : Nat) (c : Cursor α) :
    (c.advance n).marks = c.marks ∧ (c.advance n).endsLine = c.endsLine := by
  induction n generalizing c with
  | zero => exact ⟨rfl, rfl⟩
  | succ n ih =>
    obtain ⟨rest, index, pos, marks, endsLine⟩ := c
    cases rest with
    | nil => exact ⟨rfl, rfl⟩
    | cons x xs => exact ih _

end Source.Cursor

namespace Source

variable {α : Type}

/-- The line and the column of an item: one more than the ends of lines in front
of it, and the items behind the last of them. -/
def placeAt (endsLine : α → Bool) (items : List α) (i : Nat) : Position :=
  ⟨1 + (items.take i).countP endsLine, ((items.take i).reverse.takeWhile (!endsLine ·)).length⟩

theorem placeAt_succ (endsLine : α → Bool) {items : List α} {i : Nat} {x : α} {rest : List α}
    (h : items.drop i = x :: rest) :
    placeAt endsLine items (i + 1) = (placeAt endsLine items i).next (endsLine x) := by
  have htake : items.take (i + 1) = items.take i ++ [x] := by
    have hget : items[i]? = some x := by
      rw [← List.head?_drop, h, List.head?_cons]
    rw [List.take_add_one, hget, Option.toList_some]
  unfold placeAt Position.next
  rw [htake, List.countP_append, List.reverse_append]
  cases hx : endsLine x with
  | true =>
    simp [hx]
    omega
  | false => simp [hx]

end Source

end RegAsm
