/-
RegAsm.Yaml.Timestamp — dates and times among plain scalars.

A date is a year of four digits, a month and a day.  A time may follow after
`T` or `t`, then with a zone, or after spaces, then without one.
-/

namespace RegAsm.Yaml

/-- The value of a decimal digit. -/
def decimalDigit? (c : Char) : Option Nat :=
  if '0' ≤ c ∧ c ≤ '9' then some (c.toNat - '0'.toNat) else none

/-- Whether a character is a decimal digit. -/
def isDigit (c : Char) : Bool := (decimalDigit? c).isSome

namespace Timestamp

/-- A number of one or two digits, as many as stand there. -/
def shortNumber? : List Char → Option (Nat × List Char)
  | [] => none
  | c :: cs => do
    let a ← decimalDigit? c
    match cs with
    | [] => some (a, [])
    | d :: rest =>
      match decimalDigit? d with
      | some b => some (10 * a + b, rest)
      | none => some (a, d :: rest)

/-- A number of exactly two digits. -/
def pair? : List Char → Option (Nat × List Char)
  | c :: d :: rest => do some (10 * (← decimalDigit? c) + (← decimalDigit? d), rest)
  | _ => none

/-- One given character. -/
def char? (c : Char) : List Char → Option (List Char)
  | d :: rest => if c = d then some rest else none
  | [] => none

/-- Whether a year has a 29th of February. -/
def isLeap (year : Nat) : Bool := year % 4 == 0 && (year % 100 != 0 || year % 400 == 0)

/-- The number of days of a month. -/
def daysIn (year month : Nat) : Nat :=
  if month = 2 then (if isLeap year then 29 else 28)
  else if month = 4 ∨ month = 6 ∨ month = 9 ∨ month = 11 then 30
  else 31

/-- A day that exists, and what follows it. -/
def date? (text : List Char) : Option (List Char) := do
  let year := text.takeWhile isDigit
  if year.length ≠ 4 then none
  let value := year.foldl (fun n c => 10 * n + (decimalDigit? c).getD 0) 0
  let rest ← char? '-' (text.dropWhile isDigit)
  let (month, rest) ← shortNumber? rest
  let rest ← char? '-' rest
  let (day, rest) ← shortNumber? rest
  if 1 ≤ month ∧ month ≤ 12 ∧ 1 ≤ day ∧ day ≤ daysIn value month then some rest else none

/-- Drops a fraction of a second, if there is one. -/
def dropFraction : List Char → List Char
  | c :: d :: rest =>
    if (c = '.' ∨ c = ',') ∧ isDigit d then rest.dropWhile isDigit else c :: d :: rest
  | rest => rest

/-- A time of day, and what follows it. -/
def time? (text : List Char) : Option (List Char) := do
  let (hour, rest) ← shortNumber? text
  let (minute, rest) ← shortNumber? (← char? ':' rest)
  let (second, rest) ← shortNumber? (← char? ':' rest)
  if hour < 24 ∧ minute < 60 ∧ second < 60 then some (dropFraction rest) else none

/-- A zone: `Z`, or a sign with hours and minutes. -/
def isZone : List Char → Bool
  | ['Z'] => true
  | sign :: rest =>
    (sign == '+' || sign == '-') &&
      match pair? rest with
      | some (hours, ':' :: rest) =>
        match pair? rest with
        | some (minutes, []) => hours ≤ 24 && minutes ≤ 60
        | _ => false
      | _ => false
  | [] => false

end Timestamp

/-- Whether a plain scalar is a date or a time. -/
def isTimestamp (text : List Char) : Bool :=
  match Timestamp.date? text with
  | none => false
  | some [] => true
  | some (c :: rest) =>
    if c = 'T' ∨ c = 't' then
      match Timestamp.time? rest with
      | some zone => Timestamp.isZone zone
      | none => false
    else if c = ' ' then Timestamp.time? (rest.dropWhile (· == ' ')) == some []
    else false

end RegAsm.Yaml
