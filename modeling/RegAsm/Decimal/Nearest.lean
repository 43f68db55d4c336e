/-
RegAsm.Decimal.Nearest — the whole part of a decimal fraction.

A decimal fraction is first brought to the nearest number with 53 significant
bits, a tie going to the even one, and then cut to its whole part.  All
arithmetic is exact.
-/

namespace RegAsm.Decimal

/-- The significant bits of a number. -/
def significantBits : Nat := 53

/-- Numbers from two to this power on are out of range. -/
def exponentLimit : Nat := 1024

/-- A quotient rounded to the nearest whole number, a tie to the even one. -/
def roundDiv (num den : Nat) : Nat :=
  let down := num / den
  let twice := 2 * (num % den)
  if twice < den ∨ (twice = den ∧ down % 2 = 0) then down else down + 1

/-- A quotient divided by a power of two, as a quotient. -/
def scaleDown (num den : Nat) : Int → Nat × Nat
  | .ofNat e => (num, den * Nat.pow 2 e)
  | .negSucc e => (num * Nat.pow 2 (e + 1), den)

/-- The exponent of the last significant bit of a positive quotient. -/
def lastBit (num den : Nat) : Int :=
  let guess : Int := (num.log2 : Int) - (den.log2 : Int) - (significantBits : Int)
  let (n, d) := scaleDown num den guess
  if Nat.pow 2 significantBits ≤ n / d then guess + 1 else guess

/-- A mantissa times a power of two, cut to its whole part. -/
def wholeOf (mantissa : Nat) : Int → Nat
  | .ofNat e => mantissa * Nat.pow 2 e
  | .negSucc e => mantissa / Nat.pow 2 (e + 1)

/-- The whole part of a quotient brought to the significant bits, or nothing
if it is out of range. -/
def wholeOfQuotient? (num den : Nat) : Option Nat :=
  if num = 0 then some 0
  else
    let e := lastBit num den
    let (n, d) := scaleDown num den e
    let whole := wholeOf (roundDiv n d) e
    if whole < Nat.pow 2 exponentLimit then some whole else none

/-- The whole part of `digits * 10 ^ exponent`.  Far out of range the power is
not computed. -/
def whole? (digits : Nat) (exponent : Int) : Option Nat :=
  if digits = 0 then some 0
  else
    let places : Int := ((Nat.toDigits 10 digits).length : Int) + exponent
    if 400 < places then none
    else if places < -400 then some 0
    else match exponent with
      | .ofNat e => wholeOfQuotient? (digits * Nat.pow 10 e) 1
      | .negSucc e => wholeOfQuotient? digits (Nat.pow 10 (e + 1))

end RegAsm.Decimal
