/-
RegAsm.Proofs.Numerals — number literals are exact.

A number is written as a run of decimal digits, or as a dollar sign and a run of
hexadecimal digits in either case.  However long the run is, it is read as a whole:
as its value in the positional system if that fits 32 bits, and as an illegal token
of the same text if not.  The value is built up in 64 bits and no longer changed once
it is past 32, so no product or sum on the way is ever cut.

1. Digits and their values.
2. Literals.
-/
import Mathlib
import RegAsm.Proofs.Literals

namespace RegAsm

open Recognizer

/-! ## 1. Digits and their values -/

/-- The ways of writing a number in digits. -/
inductive Radix where
  | decimal
  | hexadecimal
  deriving DecidableEq, Repr

namespace Radix

def base : Radix → Nat
  | .decimal => 10
  | .hexadecimal => 16

/-- What stands in front of the digits. -/
def lead : Radix → List Char
  | .decimal => []
  | .hexadecimal => ['$']

theorem base_pos (r : Radix) : 0 < r.base := by cases r <;> decide

theorem base_le (r : Radix) : r.base ≤ 16 := by cases r <;> decide

end Radix

/-- A character is a digit of a base, of some value; letters count in either
case. -/
def IsDigit (base : Nat) (c : Char) (d : Nat) : Prop :=
  d < base ∧ c.toLower = Nat.digitChar d

instance (base : Nat) (c : Char) (d : Nat) : Decidable (IsDigit base c d) :=
  inferInstanceAs (Decidable (_ ∧ _))

theorem toNat_lt_of_toLower {c : Char} {d : Nat} (hd : d < 16)
    (h : c.toLower = Nat.digitChar d) : c.toNat < 103 := by
  have hdigits : ∀ d < 16, (Nat.digitChar d).toNat < 103 := by decide
  by_cases hupper : c.isUpper = true
  · have hle : c.toNat ≤ 90 := by
      simp only [Char.isUpper, decide_eq_true_eq] at hupper
      exact hupper.2
    omega
  · rw [Char.toLower_eq_of_not_isUpper hupper] at h
    rw [h]
    exact hdigits d hd

/-- The digits are those that the program takes, with their values. -/
theorem isDigit_iff {base : Nat} (hbase : base ≤ 16) {c : Char} {d : Nat} :
    IsDigit base c d ↔ d < base ∧ digitValue? c = some d := by
  have hall : ∀ n < 103, ∀ d < 16, (Char.ofNat n).toLower = Nat.digitChar d ↔
      digitValue? (Char.ofNat n) = some d := by
    decide +kernel
  refine and_congr_right fun hd => ?_
  have hd16 : d < 16 := by omega
  have hsame : c.toNat < 103 → (c.toLower = Nat.digitChar d ↔ digitValue? c = some d) := by
    intro hc
    have hn := hall c.toNat hc d hd16
    rwa [Char.ofNat_toNat] at hn
  constructor
  · intro h
    exact (hsame (toNat_lt_of_toLower hd16 h)).mp h
  · intro h
    have hdigit : isDigitOf 16 c = true := by
      rw [isDigitOf, h]
      simpa using hd16
    have hrange := toNat_of_isDigitOf hdigit
    exact (hsame (by omega)).mpr h

theorem isDigitOf_iff {base : Nat} (hbase : base ≤ 16) {c : Char} :
    isDigitOf base c = true ↔ ∃ d, IsDigit base c d := by
  simp only [isDigit_iff hbase]
  constructor
  · intro h
    exact exists_of_isDigitOf h
  · rintro ⟨d, hd, hvalue⟩
    rw [isDigitOf, hvalue]
    simpa using hd

section Runs

variable {base : Nat} {run : List Char} {ds : List Nat}

/-- Digits behind others that spell `n` move `n` up by as many places. -/
theorem positional_eq_ofDigits (hbase : base ≤ 16) (h : List.Forall₂ (IsDigit base) run ds)
    (n : Nat) :
    positional base n run = Nat.ofDigits base ds.reverse + base ^ ds.length * n := by
  induction h generalizing n with
  | nil => simp [positional]
  | @cons c d run ds hdigit _ ih =>
    have hvalue := ((isDigit_iff hbase).mp hdigit).2
    rw [positional_cons, hvalue, Option.getD_some, ih, List.reverse_cons, Nat.ofDigits_append,
      Nat.ofDigits_singleton, List.length_reverse, List.length_cons, pow_succ]
    ring

theorem isDigitOf_of_mem (hbase : base ≤ 16) (h : List.Forall₂ (IsDigit base) run ds) :
    ∀ c ∈ run, isDigitOf base c = true := by
  induction h with
  | nil => exact List.forall_mem_nil _
  | cons hdigit _ ih =>
    exact List.forall_mem_cons.mpr ⟨(isDigitOf_iff hbase).mpr ⟨_, hdigit⟩, ih⟩

/-- A run that no further digit follows is what is taken off the text. -/
theorem takeWhile_run (hbase : base ≤ 16) (h : List.Forall₂ (IsDigit base) run ds)
    {rest : List Char} (hrest : ∀ c ∈ rest.head?, ∀ d, ¬ IsDigit base c d) :
    (run ++ rest).takeWhile (isDigitOf base) = run := by
  rw [List.takeWhile_append_of_pos (isDigitOf_of_mem hbase h)]
  cases rest with
  | nil => simp
  | cons c rest =>
    have hc : ¬ isDigitOf base c = true := by
      rw [isDigitOf_iff hbase]
      rintro ⟨d, hd⟩
      exact hrest c rfl d hd
    simp [hc]

end Runs

/-! ## 2. Literals -/

/-- The rule for numbers goes by the first character: a dollar sign or a decimal
digit. -/
theorem number_eq_digits (r : Radix) {run : List Char} (hne : run ≠ [])
    (hrun : ∀ c ∈ run, isDigitOf r.base c = true) (rest : List Char) :
    number (r.lead ++ run ++ rest) = digits r.base r.lead (run ++ rest) := by
  cases r with
  | hexadecimal =>
    show number ('$' :: (run ++ rest)) = _
    rw [number, if_pos rfl]
    rfl
  | decimal =>
    obtain ⟨c, tail, rfl⟩ := List.exists_cons_of_ne_nil hne
    have hplain := isPlainDigit_of_isDigitOf (hrun c List.mem_cons_self)
    obtain ⟨-, -, -, hdollar⟩ := plainDigit_spec hplain
    show number (c :: (tail ++ rest)) = _
    rw [number, if_neg hdollar, if_pos hplain]
    rfl

/-- Number literals are exact.  A run of digits that no further digit follows is
taken as a whole, with what leads it in, and gives a number if its value fits 32 bits
and an illegal token of the same text if not.  At every digit of the run the 64-bit
value `v` so far is either past 32 bits and stays, or the next one is the product
and sum of whole numbers. -/
theorem number_exact (r : Radix) (run rest : List Char) (ds : List Nat) (hne : ds ≠ [])
    (hrun : List.Forall₂ (IsDigit r.base) run ds)
    (hrest : ∀ c ∈ rest.head?, ∀ d, ¬ IsDigit r.base c d) :
    (Nat.ofDigits r.base ds.reverse < 2 ^ 32 →
      number (r.lead ++ run ++ rest) =
        .accept
          { kind := .number, text := String.ofList (r.lead ++ run),
            value := UInt32.ofNat (Nat.ofDigits r.base ds.reverse) }
          (r.lead.length + run.length)) ∧
    (2 ^ 32 ≤ Nat.ofDigits r.base ds.reverse →
      number (r.lead ++ run ++ rest) =
        .accept { kind := .illegal, text := String.ofList (r.lead ++ run) }
          (r.lead.length + run.length)) ∧
    ∀ (before : List Char) (c : Char) (behind : List Char) (d : Nat),
      run = before ++ c :: behind → IsDigit r.base c d →
      let v := before.foldl (takeDigit (UInt64.ofNat r.base)) 0
      (takeDigit (UInt64.ofNat r.base) v c).toNat =
        if v.toNat < 2 ^ 32 then v.toNat * r.base + d else v.toNat := by
  have hne' : run ≠ [] := by
    rintro rfl
    cases hrun
    exact hne rfl
  have hvalue : positional r.base 0 run = Nat.ofDigits r.base ds.reverse := by
    rw [positional_eq_ofDigits r.base_le hrun, Nat.mul_zero, Nat.add_zero]
  have hnumber := number_eq_digits r hne' (isDigitOf_of_mem r.base_le hrun) rest
  rw [digits_eq r.base_pos r.base_le r.lead hne' (takeWhile_run r.base_le hrun hrest),
    hvalue] at hnumber
  refine ⟨fun hfits => ?_, fun hlarge => ?_, ?_⟩
  · rw [hnumber, if_pos hfits, numberToken]
  · rw [hnumber, if_neg (Nat.not_lt.mpr hlarge)]
  · intro before c behind d _ hdigit v
    rw [toNat_takeDigit r.base_le, ((isDigit_iff r.base_le).mp hdigit).2, Option.getD_some]

/-- Leading zeros and letters in both cases, in front of a letter that is no digit;
and a run whose value is one too large, in front of a digit of the other base. -/
theorem number_exact_borders :
    (List.Forall₂ (IsDigit 16) ['0', '0', 'F', 'f', 'f', 'F', 'F', 'f', 'f', 'F']
        [0, 0, 15, 15, 15, 15, 15, 15, 15, 15] ∧
      number ['$', '0', '0', 'F', 'f', 'f', 'F', 'F', 'f', 'f', 'F', 'g'] =
        .accept { kind := .number, text := "$00FffFFffF", value := 0xFFFFFFFF } 11) ∧
    List.Forall₂ (IsDigit 10) ['4', '2', '9', '4', '9', '6', '7', '2', '9', '6']
        [4, 2, 9, 4, 9, 6, 7, 2, 9, 6] ∧
      number ['4', '2', '9', '4', '9', '6', '7', '2', '9', '6', 'a'] =
        .accept { kind := .illegal, text := "4294967296" } 10 := by
  have hg : ∀ c ∈ ['g'].head?, ∀ d, ¬ IsDigit 16 c d := by
    rintro c ⟨⟩ d ⟨hd, h⟩
    exact absurd h ((by decide : ∀ d < 16, 'g'.toLower ≠ Nat.digitChar d) d hd)
  have ha : ∀ c ∈ ['a'].head?, ∀ d, ¬ IsDigit 10 c d := by
    rintro c ⟨⟩ d ⟨hd, h⟩
    exact absurd h ((by decide : ∀ d < 10, 'a'.toLower ≠ Nat.digitChar d) d hd)
  have hfits := number_exact .hexadecimal ['0', '0', 'F', 'f', 'f', 'F', 'F', 'f', 'f', 'F'] ['g']
    [0, 0, 15, 15, 15, 15, 15, 15, 15, 15] (by decide) (by decide) hg
  have hlarge := number_exact .decimal ['4', '2', '9', '4', '9', '6', '7', '2', '9', '6'] ['a']
    [4, 2, 9, 4, 9, 6, 7, 2, 9, 6] (by decide) (by decide) ha
  exact ⟨⟨by decide, hfits.1 (by decide)⟩, by decide, hlarge.2.1 (by decide)⟩

end RegAsm
