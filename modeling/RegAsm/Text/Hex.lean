/-
RegAsm.Text.Hex — numbers in base sixteen, padded on the left with zeros.
-/

namespace RegAsm.Text

/-- Zeros in front of a digit string up to a width. -/
def padZeros (width : Nat) (digits : List Char) : List Char :=
  List.replicate (width - digits.length) '0' ++ digits

/-- At least `width` lower-case hexadecimal digits. -/
def hexLower (width n : Nat) : List Char := padZeros width (Nat.toDigits 16 n)

/-- At least `width` upper-case hexadecimal digits. -/
def hexUpper (width n : Nat) : List Char := (hexLower width n).map Char.toUpper

end RegAsm.Text
