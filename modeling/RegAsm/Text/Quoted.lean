/-
RegAsm.Text.Quoted — quoting for messages.

A quoted text stays on one line and shows every character: printable ones as
they are, the usual control characters by their letter, and all others by
number.  The quote in use and the backslash carry a backslash.
-/
import RegAsm.Text.Hex
import RegAsm.Text.Printable

namespace RegAsm.Text

/-- The letter that stands for a control character after a backslash. -/
def controlLetter? : Nat → Option Char
  | 0x07 => some 'a'
  | 0x08 => some 'b'
  | 0x09 => some 't'
  | 0x0A => some 'n'
  | 0x0B => some 'v'
  | 0x0C => some 'f'
  | 0x0D => some 'r'
  | _ => none

/-- One character as it stands between the given quotes. -/
def quotedChar (quote c : Char) : List Char :=
  if c = quote ∨ c = '\\' then ['\\', c]
  else if isPrintable c then [c]
  else match controlLetter? c.toNat with
    | some letter => ['\\', letter]
    | none =>
      if c.toNat < 0x20 ∨ c.toNat = 0x7F then '\\' :: 'x' :: hexLower 2 c.toNat
      else if c.toNat < 0x10000 then '\\' :: 'u' :: hexLower 4 c.toNat
      else '\\' :: 'U' :: hexLower 8 c.toNat

/-- A text between double quotes. -/
def quoted (s : String) : String :=
  String.ofList ('"' :: s.toList.flatMap (quotedChar '"') ++ ['"'])

/-- A character between single quotes. -/
def quotedSingle (c : Char) : String :=
  String.ofList ('\'' :: quotedChar '\'' c ++ ['\''])

end RegAsm.Text
