/-
RegAsm.Yaml.Scalar — what a plain scalar means.

A scalar without quotes may be null, a truth value, a number or a timestamp.
Everything else is text.  The first character decides which of these are
possible at all.
-/
import RegAsm.Decimal.Nearest
import RegAsm.Yaml.Timestamp

namespace RegAsm.Yaml

/-- The value of a number with a fraction or an exponent. -/
inductive Fraction where
  | notANumber
  | infinite (isNegative : Bool)
  /-- A finite one, by its whole part. -/
  | finite (whole : Int)
  deriving DecidableEq, Repr

/-- What a plain scalar stands for. -/
inductive Meaning where
  | null
  | bool
  | int (value : Int)
  | float (value : Fraction)
  | timestamp
  | text
  deriving DecidableEq, Repr

/-! ## 1. Words -/

/-- The words with a meaning of their own. -/
def words : List (List String × Meaning) :=
  [(["", "~", "null", "Null", "NULL"], .null),
   (["true", "True", "TRUE", "false", "False", "FALSE"], .bool),
   ([".nan", ".NaN", ".NAN"], .float .notANumber),
   ([".inf", ".Inf", ".INF", "+.inf", "+.Inf", "+.INF"], .float (.infinite false)),
   (["-.inf", "-.Inf", "-.INF"], .float (.infinite true))]

/-- The meaning of a word, if it has one. -/
def word? (s : String) : Option Meaning := (words.find? (·.1.contains s)).map (·.2)

/-! ## 2. Whole numbers -/

/-- The value of a digit up to fifteen. -/
def hexDigit? (c : Char) : Option Nat :=
  if '0' ≤ c ∧ c ≤ '9' then some (c.toNat - '0'.toNat)
  else if 'a' ≤ c ∧ c ≤ 'f' then some (c.toNat - 'a'.toNat + 10)
  else if 'A' ≤ c ∧ c ≤ 'F' then some (c.toNat - 'A'.toNat + 10)
  else none

/-- The value of a run of digits of a base. -/
def digitsOf? (base : Nat) (text : List Char) : Option Nat :=
  text.foldl (fun acc c => do
    let n ← acc
    let d ← hexDigit? c
    if d < base then some (base * n + d) else none) (some 0)

/-- A number without a sign.  Its lead gives its base: `0x`, `0b`, `0o`, or `0`
for base eight. -/
def natural? : List Char → Option Nat
  | [] => none
  | '0' :: c :: d :: rest =>
    if c = 'x' ∨ c = 'X' then digitsOf? 16 (d :: rest)
    else if c = 'b' ∨ c = 'B' then digitsOf? 2 (d :: rest)
    else if c = 'o' ∨ c = 'O' then digitsOf? 8 (d :: rest)
    else digitsOf? 8 (c :: d :: rest)
  | '0' :: rest => digitsOf? 8 rest
  | text => digitsOf? 10 text

/-- A number with an optional sign, read by the given reader of naturals.  It
has to fit 64 bits with a sign. -/
def signed? (read : List Char → Option Nat) : List Char → Option Int
  | '-' :: rest => do
    let n ← read rest
    if n ≤ Nat.pow 2 63 then some (-(n : Int)) else none
  | '+' :: rest => do
    let n ← read rest
    if n < Nat.pow 2 63 then some (n : Int) else none
  | text => do
    let n ← read text
    if n < Nat.pow 2 63 then some (n : Int) else none

/-- A number without a sign that fits 64 bits. -/
def unsigned? (text : List Char) : Option Int := do
  let n ← natural? text
  if n < UInt64.size then some (n : Int) else none

/-- The digits of a base, of which there is at least one. -/
def someDigits? (base : Nat) : List Char → Option Nat
  | [] => none
  | text => digitsOf? base text

/-- A number whose sign stands behind the mark of its base. -/
def innerSign? : List Char → Option Int
  | '0' :: 'b' :: rest => signed? (someDigits? 2) rest
  | '0' :: 'o' :: rest => signed? (someDigits? 8) rest
  | '-' :: '0' :: 'b' :: rest => signed? (someDigits? 2) ('-' :: rest)
  | '-' :: '0' :: 'o' :: rest => signed? (someDigits? 8) ('-' :: rest)
  | _ => none

/-! ## 3. Fractions -/

/-- Splits off a sign; `true` is minus. -/
def takeSign : List Char → Bool × List Char
  | '-' :: rest => (true, rest)
  | '+' :: rest => (false, rest)
  | text => (false, text)

/-- The value of decimal digits. -/
def decimalValue (text : List Char) : Nat :=
  text.foldl (fun n c => 10 * n + (decimalDigit? c).getD 0) 0

/-- The exponent at the end of a number: nothing, or `e` with a number. -/
def exponent? : List Char → Option Int
  | [] => some 0
  | c :: rest =>
    let (minus, digits) := takeSign rest
    if (c = 'e' ∨ c = 'E') ∧ digits ≠ [] ∧ digits.all isDigit then
      some (if minus then -(decimalValue digits : Int) else (decimalValue digits : Int))
    else none

/-- The digits before and after the point, and what follows. -/
def mantissa? (text : List Char) : Option (List Char × List Char × List Char) :=
  let whole := text.takeWhile isDigit
  match text.dropWhile isDigit with
  | '.' :: rest =>
    let part := rest.takeWhile isDigit
    if whole = [] ∧ part = [] then none else some (whole, part, rest.dropWhile isDigit)
  | rest => if whole = [] then none else some (whole, [], rest)

/-- A number with a point or an exponent.  One that is too large is none. -/
def fraction? (text : List Char) : Option Fraction := do
  let (minus, rest) := takeSign text
  let (whole, part, rest) ← mantissa? rest
  let e ← exponent? rest
  let n ← Decimal.whole? (decimalValue (whole ++ part)) (e - (part.length : Int))
  some (.finite (if minus then -(n : Int) else (n : Int)))

/-! ## 4. The meaning of a scalar -/

/-- The meaning of a scalar that starts like a number. -/
def numeral (text : List Char) : Meaning :=
  if isTimestamp text then .timestamp
  else
    let plain := text.filter (· != '_')
    match signed? natural? plain <|> unsigned? plain with
    | some n => .int n
    | none =>
      match fraction? plain with
      | some x => .float x
      | none =>
        match innerSign? plain with
        | some n => .int n
        | none => .text

/-- What a plain scalar stands for. -/
def meaning (s : String) : Meaning :=
  match s.toList with
  | [] => .null
  | c :: rest =>
    if c = '+' ∨ c = '-' ∨ isDigit c then
      match word? s with
      | some m => m
      | none => numeral (c :: rest)
    else if c = '.' then
      match word? s with
      | some m => m
      | none => match fraction? (c :: rest) with
        | some x => .float x
        | none => .text
    else if "yYnNtTfFoO~".toList.contains c then (word? s).getD .text
    else .text

end RegAsm.Yaml
