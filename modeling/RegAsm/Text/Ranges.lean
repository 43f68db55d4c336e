/-
RegAsm.Text.Ranges — tables of code point ranges.

A character class is a list of inclusive ranges in ascending order.  A
look-up walks the table and stops at the first range that begins past the
code point, so the characters that sources are mostly made of are settled
within the first few entries.
-/

namespace RegAsm.Text

/-- A table of inclusive code point ranges, in ascending order. -/
abbrev Ranges := List (Nat × Nat)

/-- Whether a code point lies in one of the ranges. -/
def Ranges.covers : Ranges → Nat → Bool
  | [], _ => false
  | (lo, hi) :: rest, c =>
    if c < lo then false else if c ≤ hi then true else Ranges.covers rest c

end RegAsm.Text
