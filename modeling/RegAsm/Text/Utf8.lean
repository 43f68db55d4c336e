/-
RegAsm.Text.Utf8 — reading bytes as text.

Source files are read as UTF-8.  A byte that begins no well-formed sequence
stands for one replacement character and the reading goes on at the next
byte, so every byte string has a reading.
-/

namespace RegAsm.Text

/-- The six payload bits of a continuation byte. -/
def continuation? (b : UInt8) : Option Nat :=
  if 0x80 ≤ b ∧ b < 0xC0 then some (b.toNat - 0x80) else none

/-- The scalar value at the front of a byte string and the number of bytes it
takes.  Overlong forms, surrogates and values past U+10FFFF are refused. -/
def scalarAt? : List UInt8 → Option (Nat × Nat)
  | [] => none
  | b :: rest =>
    if b < 0x80 then some (b.toNat, 1)
    else if b < 0xE0 then
      match rest with
      | b1 :: _ => do
        let v := (b.toNat - 0xC0) * 64 + (← continuation? b1)
        if 0x80 ≤ v ∧ 0xC0 ≤ b then some (v, 2) else none
      | _ => none
    else if b < 0xF0 then
      match rest with
      | b1 :: b2 :: _ => do
        let v := ((b.toNat - 0xE0) * 64 + (← continuation? b1)) * 64 + (← continuation? b2)
        if 0x800 ≤ v ∧ ¬ (0xD800 ≤ v ∧ v < 0xE000) then some (v, 3) else none
      | _ => none
    else if b < 0xF8 then
      match rest with
      | b1 :: b2 :: b3 :: _ => do
        let high := ((b.toNat - 0xF0) * 64 + (← continuation? b1)) * 64 + (← continuation? b2)
        let v := high * 64 + (← continuation? b3)
        if 0x10000 ≤ v ∧ v < 0x110000 then some (v, 4) else none
      | _ => none
    else none

/-- The character shown for a byte that belongs to no character. -/
def replacement : Char := '�'

/-- Reads on behind `skip` bytes of a character that is already read; `done`
holds the characters so far, the last one first. -/
def decodeFrom (done : List Char) (skip : Nat) : List UInt8 → List Char
  | [] => done.reverse
  | b :: rest =>
    match skip with
    | k + 1 => decodeFrom done k rest
    | 0 =>
      match scalarAt? (b :: rest) with
      | some (v, width) => decodeFrom (Char.ofNat v :: done) (width - 1) rest
      | none => decodeFrom (replacement :: done) 0 rest

/-- The characters of a byte string. -/
def decode (bytes : List UInt8) : List Char := decodeFrom [] 0 bytes

/-- The bytes of a text. -/
def encode (s : String) : List UInt8 := s.toUTF8.data.toList

end RegAsm.Text
