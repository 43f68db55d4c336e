/-
RegAsm.Proofs.Literals — pieces of text and the tokens they are read as.

A text that is put together from pieces is read piece by piece, as long as no
piece runs on into the next one: a mark, a string or white space never does
(`Lexes`), a word or a number does if a character of a name follows
(`LexesOpen`).

1. Pieces.
2. Marks and words.
3. Digits and their values.
4. Numbers.
5. Strings.
-/
import RegAsm.Proofs.Words
import RegAsm.Text.Hex

namespace RegAsm

open Machine Recognizer

/-! ## 1. Pieces -/

/-- A piece that is read as some tokens, whatever follows it. -/
def Lexes (text : List Char) (tokens : List Token) : Prop :=
  ∀ rest, scan assembly (text ++ rest) = tokens ++ scan assembly rest

/-- A piece that is read as some tokens unless a name runs on behind it. -/
def LexesOpen (text : List Char) (tokens : List Token) : Prop :=
  ∀ rest, endsName rest = true → scan assembly (text ++ rest) = tokens ++ scan assembly rest

section Pieces

variable {a b : List Char} {xs ys : List Token}

theorem Lexes.nil : Lexes [] [] := fun _ => rfl

theorem Lexes.append (ha : Lexes a xs) (hb : Lexes b ys) : Lexes (a ++ b) (xs ++ ys) := by
  intro rest
  rw [List.append_assoc, ha, hb, List.append_assoc]

theorem Lexes.opened (ha : Lexes a xs) : LexesOpen a xs := fun rest _ => ha rest

theorem Lexes.appendOpen (ha : Lexes a xs) (hb : LexesOpen b ys) :
    LexesOpen (a ++ b) (xs ++ ys) := by
  intro rest hrest
  rw [List.append_assoc, ha, hb rest hrest, List.append_assoc]

/-- A piece that does not start like a name ends a word in front of it. -/
theorem LexesOpen.close {c : Char} (ha : LexesOpen a xs) (hb : Lexes (c :: b) ys)
    (hc : isNameChar c = false) : Lexes (a ++ c :: b) (xs ++ ys) := by
  intro rest
  have hends : endsName (c :: b ++ rest) = true := by simp [endsName, hc]
  rw [List.append_assoc, ha _ hends, hb, List.append_assoc]

theorem lexes_blanks (h : ∀ c ∈ a, Text.isBlank c = true) : Lexes a [] :=
  fun _ => scan_blanks h

/-- A text that is cut into pieces is read as their tokens. -/
theorem Lexes.scan_eq (ha : Lexes a xs) : scan assembly a = xs ++ [Token.finish] := by
  rw [← scan_nil, ← ha, List.append_nil]

end Pieces

/-! ## 2. Marks and words -/

theorem lexesOpen_word {w : List Char} (hw : IsWord w) : LexesOpen w [wordToken w] :=
  fun _ hrest => scan_word hw hrest

/-- The characters of the punctuation. -/
def markChars : List Char := [',', '(', ')', '.', ':']

/-- The token of a punctuation character. -/
def markToken (c : Char) : Token :=
  { kind := .symbol, text := String.singleton c, id := markChars.idxOf c }

theorem match?_mark {c : Char} (hc : c ∈ markChars) (rest : List Char) :
    match? (symbols marks) (c :: rest) = some (markToken c, 1) := by
  simp only [markChars, List.mem_cons, List.not_mem_nil, or_false] at hc
  rcases hc with rfl | rfl | rfl | rfl | rfl <;> rfl

/-- A mark is a token of its own, whatever follows. -/
theorem lexes_mark {c : Char} (hc : c ∈ markChars) : Lexes [c] [markToken c] := by
  have hplain : markChars.all (fun c => Text.isBlank c = false ∧ c ≠ ';') = true := by decide
  obtain ⟨hblank, hcomment⟩ := of_decide_eq_true (List.all_eq_true.mp hplain c hc)
  intro rest
  have hmark : match? (symbols [",", "(", ")", ".", ":"]) (c :: rest) = _ := match?_mark hc rest
  have hfirst : firstMatch? assembly ([c] ++ rest) = some (markToken c, [c].length) := by
    rw [List.singleton_append, assembly, Lexer.language,
      firstMatch?_cons_none (blank_refuse hblank _),
      firstMatch?_cons_none (comment_refuse hcomment _), firstMatch?_cons_some hmark,
      List.length_singleton]
  refine scan_token (List.cons_ne_nil _ _) hfirst ?_
  intro h
  cases h

/-! ## 3. Digits -/

/-- The number that some digits spell in a base, behind others that spell
`v`. -/
def positional (base : Nat) (v : Nat) (run : List Char) : Nat :=
  run.foldl (fun v c => v * base + (digitValue? c).getD 0) v

theorem positional_cons (base v : Nat) (c : Char) (run : List Char) :
    positional base v (c :: run) = positional base (v * base + (digitValue? c).getD 0) run := rfl

theorem Recognizer.digitValue?_lt {c : Char} {d : Nat} (h : digitValue? c = some d) : d < 16 := by
  unfold digitValue? at h
  split at h
  · rename_i hc
    have hle : c.toNat ≤ 57 := hc.2
    have hzero : '0'.toNat = 48 := rfl
    cases h
    omega
  split at h
  · rename_i hc
    have hle : c.toNat ≤ 102 := hc.2
    have ha : 'a'.toNat = 97 := rfl
    cases h
    omega
  split at h
  · rename_i hc
    have hle : c.toNat ≤ 70 := hc.2
    have ha : 'A'.toNat = 65 := rfl
    cases h
    omega
  · cases h

section Accumulator

variable {base : Nat} (hbase : base ≤ 16)

include hbase

/-- One more digit is taken in exactly: as long as the value fits 32 bits, the
product and the sum are far from the end of the 64 bits. -/
theorem toNat_takeDigit (v : UInt64) (c : Char) :
    (takeDigit (UInt64.ofNat base) v c).toNat =
      if v.toNat < 2 ^ 32 then v.toNat * base + (digitValue? c).getD 0 else v.toNat := by
  have hmax : v ≤ maxValue ↔ v.toNat < 2 ^ 32 := by
    have hvalue : maxValue.toNat = 2 ^ 32 - 1 := rfl
    rw [UInt64.le_iff_toNat_le]
    omega
  have hdigit : (digitValue? c).getD 0 < 16 := by
    cases h : digitValue? c with
    | none => exact Nat.succ_pos _
    | some d => exact digitValue?_lt h
  rw [takeDigit]
  split
  · rename_i hle
    have hlt := hmax.mp hle
    have hmul : v.toNat * base ≤ v.toNat * 16 := Nat.mul_le_mul_left _ hbase
    have hsize : UInt64.size = 2 ^ 64 := rfl
    rw [if_pos hlt, UInt64.toNat_add, UInt64.toNat_mul,
      UInt64.toNat_ofNat_of_lt' (by omega : base < UInt64.size),
      UInt64.toNat_ofNat_of_lt' (by omega : _ < UInt64.size),
      Nat.mod_eq_of_lt (by omega : v.toNat * base < 2 ^ 64), Nat.mod_eq_of_lt (by omega)]
  · rename_i hle
    rw [if_neg fun hlt => hle (hmax.mpr hlt)]

/-- The digits taken in one by one give their number, or it needs more than 32
bits and the value taken in shows it. -/
theorem foldl_takeDigit (hpos : 0 < base) (run : List Char) {v : UInt64} {n : Nat}
    (h : v.toNat = n ∨ 2 ^ 32 ≤ v.toNat ∧ 2 ^ 32 ≤ n) :
    (run.foldl (takeDigit (UInt64.ofNat base)) v).toNat = positional base n run ∨
      2 ^ 32 ≤ (run.foldl (takeDigit (UInt64.ofNat base)) v).toNat ∧
        2 ^ 32 ≤ positional base n run := by
  induction run generalizing v n with
  | nil => exact h
  | cons c run ih =>
    have hmore : n ≤ n * base := Nat.le_mul_of_pos_right n hpos
    rw [List.foldl_cons, positional_cons]
    refine ih ?_
    rw [toNat_takeDigit hbase]
    rcases h with rfl | ⟨hv, hn⟩
    · split
      · exact .inl rfl
      · exact .inr ⟨by omega, by omega⟩
    · rw [if_neg (by omega)]
      exact .inr ⟨hv, by omega⟩

end Accumulator

theorem positional_append (base v : Nat) (xs ys : List Char) :
    positional base v (xs ++ ys) = positional base (positional base v xs) ys :=
  List.foldl_append

theorem positional_zeros (base n : Nat) : positional base 0 (List.replicate n '0') = 0 := by
  induction n with
  | zero => rfl
  | succ n ih => simpa [List.replicate_succ, positional, digitValue?] using ih

theorem Recognizer.exists_of_isDigitOf {base : Nat} {c : Char} (h : isDigitOf base c = true) :
    ∃ d < base, digitValue? c = some d := by
  unfold isDigitOf at h
  split at h
  · rename_i d hd
    exact ⟨d, of_decide_eq_true h, hd⟩
  · cases h

/-- How a digit is spelled: in lower or in upper case. -/
def IsDigitCase (f : Char → Char) : Prop :=
  ∀ d < 16, digitValue? (f (Nat.digitChar d)) = some d

theorem isDigitCase_id : IsDigitCase id := by
  unfold IsDigitCase
  decide

theorem isDigitCase_toUpper : IsDigitCase Char.toUpper := by
  unfold IsDigitCase
  decide

section Spelling

variable {base : Nat} {f : Char → Char}

theorem positional_toDigits (hbase : 1 < base) (hle : base ≤ 16) (hf : IsDigitCase f) (n : Nat) :
    positional base 0 ((Nat.toDigits base n).map f) = n := by
  induction n using Nat.strongRecOn with
  | ind n ih =>
    by_cases hn : n < base
    · rw [Nat.toDigits_of_lt_base hn]
      simp [positional, hf n (by omega)]
    · have hdiv : n / base < n := Nat.div_lt_self (by omega) hbase
      have hmod : n % base < 16 := Nat.lt_of_lt_of_le (Nat.mod_lt n (by omega)) hle
      rw [Nat.toDigits_of_base_le hbase (Nat.le_of_not_lt hn), List.map_append, positional_append,
        ih _ hdiv]
      simpa [positional, hf _ hmod] using Nat.div_add_mod' n base

theorem isDigitOf_toDigits (hbase : 1 < base) (hle : base ≤ 16) (hf : IsDigitCase f) (n : Nat) :
    ∀ c ∈ (Nat.toDigits base n).map f, isDigitOf base c = true := by
  have hdigit : ∀ d < base, isDigitOf base (f (Nat.digitChar d)) = true := by
    intro d hd
    rw [isDigitOf, hf d (by omega)]
    simpa using hd
  induction n using Nat.strongRecOn with
  | ind n ih =>
    by_cases hn : n < base
    · rw [Nat.toDigits_of_lt_base hn]
      simpa using hdigit n hn
    · have hdiv : n / base < n := Nat.div_lt_self (by omega) hbase
      rw [Nat.toDigits_of_base_le hbase (Nat.le_of_not_lt hn), List.map_append]
      intro c hc
      rcases List.mem_append.mp hc with hc | hc
      · exact ih _ hdiv c hc
      · simp only [List.map_cons, List.map_nil, List.mem_singleton] at hc
        exact hc ▸ hdigit _ (Nat.mod_lt n (by omega))

end Spelling

theorem hexUpper_eq (width n : Nat) :
    Text.hexUpper width n = List.replicate (width - (Nat.toDigits 16 n).length) '0' ++
      (Nat.toDigits 16 n).map Char.toUpper := by
  simp [Text.hexUpper, Text.hexLower, Text.padZeros]

theorem isDigitOf_hexUpper (width n : Nat) :
    ∀ c ∈ Text.hexUpper width n, isDigitOf 16 c = true := by
  intro c hc
  rw [hexUpper_eq, List.mem_append] at hc
  rcases hc with hc | hc
  · rw [List.eq_of_mem_replicate hc]
    decide
  · exact isDigitOf_toDigits (by decide) (by decide) isDigitCase_toUpper _ c hc

theorem positional_hexUpper (width n : Nat) : positional 16 0 (Text.hexUpper width n) = n := by
  rw [hexUpper_eq, positional_append, positional_zeros,
    positional_toDigits (by decide) (by decide) isDigitCase_toUpper]

/-! ## 4. Numbers -/

theorem Recognizer.toNat_of_isDigitOf {base : Nat} {c : Char} (h : isDigitOf base c = true) :
    48 ≤ c.toNat ∧ c.toNat ≤ 57 ∨ 97 ≤ c.toNat ∧ c.toNat ≤ 102 ∨
      65 ≤ c.toNat ∧ c.toNat ≤ 70 := by
  unfold isDigitOf digitValue? at h
  split at h
  · rename_i d hd
    split at hd
    · rename_i hc
      exact .inl hc
    · split at hd
      · rename_i hc
        exact .inr (.inl hc)
      · split at hd
        · rename_i hc
          exact .inr (.inr hc)
        · cases hd
  · cases h

/-- A digit is a character of names, so a number ends where a name would. -/
theorem isNameChar_of_isDigitOf {base : Nat} {c : Char} (h : isDigitOf base c = true) :
    isNameChar c = true := by
  have hall : ∀ n < 103, Text.decimalDigits.covers n = true ∨ Text.letters.covers n = true ∨
      n < 48 ∨ 57 < n ∧ n < 65 ∨ 70 < n ∧ n < 97 := by decide +kernel
  have hrange := toNat_of_isDigitOf h
  simp only [isNameChar, Text.isLetter, Text.isDecimalDigit, Bool.or_eq_true]
  rcases hall c.toNat (by omega) with hdigit | hletter | hrest
  · exact .inl (.inr hdigit)
  · exact .inl (.inl hletter)
  · omega

theorem takeWhile_digits {base : Nat} {run rest : List Char}
    (hrun : ∀ c ∈ run, isDigitOf base c = true) (hrest : endsName rest = true) :
    (run ++ rest).takeWhile (isDigitOf base) = run := by
  rw [List.takeWhile_append_of_pos hrun]
  cases rest with
  | nil => simp
  | cons c rest =>
    have hc : isDigitOf base c = false := by
      cases hc : isDigitOf base c with
      | false => rfl
      | true => simp [endsName, isNameChar_of_isDigitOf hc] at hrest
    simp [hc]

/-- A run of digits is read as its number, or as an illegal token if that needs more
than 32 bits. -/
theorem digits_eq {base : Nat} (hpos : 0 < base) (hbase : base ≤ 16) (lead : List Char)
    {run rest : List Char} (hne : run ≠ [])
    (hrun : (run ++ rest).takeWhile (isDigitOf base) = run) :
    digits base lead (run ++ rest) =
      .accept
        (if positional base 0 run < 2 ^ 32 then
          numberToken (lead ++ run) (UInt32.ofNat (positional base 0 run))
        else { kind := .illegal, text := String.ofList (lead ++ run) })
        (lead.length + run.length) := by
  have hempty : ¬ run.isEmpty = true := by simpa using hne
  have hmax : ∀ v : UInt64, maxValue < v ↔ 2 ^ 32 ≤ v.toNat := by
    intro v
    have hvalue : maxValue.toNat = 2 ^ 32 - 1 := rfl
    rw [UInt64.lt_iff_toNat_lt]
    omega
  simp only [digits, hrun, if_neg hempty, hmax]
  rcases foldl_takeDigit hbase hpos run (v := 0) (n := 0) (.inl rfl) with h | ⟨hv, hn⟩
  · by_cases hfits : positional base 0 run < 2 ^ 32
    · have hvalue : (run.foldl (takeDigit (UInt64.ofNat base)) 0).toUInt32 =
          UInt32.ofNat (positional base 0 run) := by
        rw [← h]
        rfl
      rw [if_neg (by omega), if_pos hfits, hvalue, numberToken]
    · rw [if_pos (by omega), if_neg hfits]
  · rw [if_pos hv, if_neg (by omega)]

/-- A run of digits that spells a 32-bit number is read as that number. -/
theorem digits_accept {base : Nat} (hpos : 0 < base) (hbase : base ≤ 16) (lead : List Char)
    {run rest : List Char} (hne : run ≠ []) (hrun : ∀ c ∈ run, isDigitOf base c = true)
    (hrest : endsName rest = true) {v : UInt32} (hv : positional base 0 run = v.toNat) :
    digits base lead (run ++ rest) =
      .accept (numberToken (lead ++ run) v) (lead.length + run.length) := by
  rw [digits_eq hpos hbase lead hne (takeWhile_digits hrun hrest), hv, if_pos v.toNat_lt,
    UInt32.ofNat_toNat]

theorem firstMatch?_number {c : Char} (hblank : Text.isBlank c = false) (hcomment : c ≠ ';')
    (hmark : c ∉ markChars) {rest : List Char} {token : Token} {n : Nat}
    (h : number (c :: rest) = .accept token n) (hn : 0 < n) :
    firstMatch? assembly (c :: rest) = some (token, n) := by
  have hheads : ∀ s ∈ marks, s.toList.head? ≠ some c := by
    have hall : marks.all (fun s => s.toList.head?.all (· ∈ markChars)) = true := by decide
    intro s hs heq
    have hmem := List.all_eq_true.mp hall s hs
    rw [heq, Option.all_some, decide_eq_true_eq] at hmem
    exact hmark hmem
  have hsymbols : match? (symbols [",", "(", ")", ".", ":"]) (c :: rest) = none :=
    symbols_refuse hheads rest
  rw [assembly, Lexer.language, firstMatch?_cons_none (blank_refuse hblank _),
    firstMatch?_cons_none (comment_refuse hcomment _), firstMatch?_cons_none hsymbols,
    firstMatch?_cons_some (match?_accept h hn (List.cons_ne_nil _ _))]

/-- Digits behind a dollar sign are read as the number that the digits give. -/
theorem lexesOpen_dollar {run : List Char} {v : UInt32}
    (h : ∀ rest, endsName rest = true → digits 16 ['$'] (run ++ rest) =
      .accept (numberToken ('$' :: run) v) (['$'].length + run.length)) :
    LexesOpen ('$' :: run) [numberToken ('$' :: run) v] := by
  intro rest hrest
  have hfirst : firstMatch? assembly ('$' :: (run ++ rest)) =
      some (numberToken ('$' :: run) v, ['$'].length + run.length) :=
    firstMatch?_number (by decide) (by decide) (by decide) (h rest hrest)
      (Nat.add_pos_left Nat.one_pos _)
  rw [Nat.add_comm] at hfirst
  exact scan_token (List.cons_ne_nil _ _) hfirst TokenKind.noConfusion

/-- A number in base sixteen behind a dollar sign. -/
theorem lexesOpen_hex (width : Nat) (v : UInt32) :
    LexesOpen ('$' :: Text.hexUpper width v.toNat)
      [numberToken ('$' :: Text.hexUpper width v.toNat) v] := by
  have hne : Text.hexUpper width v.toNat ≠ [] := by
    rw [hexUpper_eq]
    simp [Nat.toDigits_ne_nil]
  exact lexesOpen_dollar fun rest hrest => digits_accept (by decide) (by decide) ['$'] hne
    (isDigitOf_hexUpper width v.toNat) hrest (positional_hexUpper width v.toNat)

theorem isPlainDigit_of_isDigitOf {c : Char} (h : isDigitOf 10 c = true) :
    isPlainDigit c = true := by
  unfold isDigitOf digitValue? at h
  split at h
  · rename_i d hd
    simp only [decide_eq_true_eq] at h
    split at hd
    · rename_i hc
      simp [isPlainDigit, hc]
    · split at hd
      · cases hd
        omega
      · split at hd
        · cases hd
          omega
        · cases hd
  · cases h

theorem plainDigit_spec {c : Char} (h : isPlainDigit c = true) :
    Text.isBlank c = false ∧ c ≠ ';' ∧ c ∉ markChars ∧ c ≠ '$' := by
  have hblanks : ∀ n < 58, 48 ≤ n → Text.blanks.covers n = false := by decide
  simp only [isPlainDigit, Bool.and_eq_true, decide_eq_true_eq] at h
  have hrange : 48 ≤ c.toNat ∧ c.toNat ≤ 57 := h
  have hne : ∀ d : Char, d.toNat < 48 ∨ 57 < d.toNat → c ≠ d := by
    rintro d hd rfl
    omega
  refine ⟨hblanks _ (by omega) hrange.1, hne _ (by decide), ?_, hne _ (by decide)⟩
  intro hmem
  have hmarks : markChars.all (fun d => d.toNat < 48 ∨ 57 < d.toNat) = true := by decide
  exact hne c (of_decide_eq_true (List.all_eq_true.mp hmarks c hmem)) rfl

/-- Plain digits are read as the number that they give. -/
theorem lexesOpen_plain {run : List Char} {v : UInt32} (hne : run ≠ [])
    (hrun : ∀ c ∈ run, isDigitOf 10 c = true)
    (h : ∀ rest, endsName rest = true → digits 10 [] (run ++ rest) =
      .accept (numberToken run v) (([] : List Char).length + run.length)) :
    LexesOpen run [numberToken run v] := by
  intro rest hrest
  obtain ⟨c, tail, rfl⟩ := List.exists_cons_of_ne_nil hne
  have hplain := isPlainDigit_of_isDigitOf (hrun c List.mem_cons_self)
  obtain ⟨hblank, hcomment, hmark, hdollar⟩ := plainDigit_spec hplain
  have hnumber : number (c :: (tail ++ rest)) =
      .accept (numberToken (c :: tail) v) (c :: tail).length := by
    rw [number, if_neg hdollar, if_pos hplain, ← List.cons_append, h rest hrest,
      List.length_nil, Nat.zero_add]
  exact scan_token (List.cons_ne_nil _ _)
    (firstMatch?_number hblank hcomment hmark hnumber (Nat.succ_pos _)) TokenKind.noConfusion

/-- A number in base ten. -/
theorem lexesOpen_decimal (v : UInt32) :
    LexesOpen (Nat.toDigits 10 v.toNat) [numberToken (Nat.toDigits 10 v.toNat) v] := by
  have hspelling : (Nat.toDigits 10 v.toNat).map id = Nat.toDigits 10 v.toNat := List.map_id _
  have hrun := isDigitOf_toDigits (by decide : 1 < 10) (by decide) isDigitCase_id v.toNat
  have hv := positional_toDigits (by decide : 1 < 10) (by decide) isDigitCase_id v.toNat
  rw [hspelling] at hrun hv
  exact lexesOpen_plain Nat.toDigits_ne_nil hrun fun rest hrest =>
    digits_accept (by decide) (by decide) [] Nat.toDigits_ne_nil hrun hrest hv

/-! ## 5. Strings -/

/-- A character is spelled by a backslash and its letter, or as it is. -/
theorem escapeChar_cases (c : Char) :
    (∃ e, Token.escapeChar c = ['\\', e] ∧ Token.unescape? e = some c) ∨
      Token.escapeChar c = [c] ∧ c ≠ '\n' ∧ c ≠ '"' ∧ c ≠ '\'' ∧ c ≠ '\\' := by
  unfold Token.escapeChar
  split
  · subst_vars; exact .inl ⟨_, rfl, rfl⟩
  split
  · subst_vars; exact .inl ⟨_, rfl, rfl⟩
  split
  · subst_vars; exact .inl ⟨_, rfl, rfl⟩
  split
  · subst_vars; exact .inl ⟨_, rfl, rfl⟩
  split
  · rename_i h
    rcases h with rfl | rfl | rfl <;> exact .inl ⟨_, rfl, rfl⟩
  · rename_i hlf _ _ _ hquote
    simp only [not_or] at hquote
    exact .inr ⟨rfl, hlf, hquote⟩

/-- An escaped character is read as the character. -/
theorem stringBody_escapeChar (c : Char) (done : List Char) (taken : Nat) (rest : List Char) :
    stringBody done taken (Token.escapeChar c ++ rest) =
      stringBody (c :: done) (taken + (Token.escapeChar c).length) rest := by
  rcases escapeChar_cases c with ⟨e, hescape, hunescape⟩ | ⟨hescape, hlf, hquote, -, hback⟩
  · rw [hescape]
    simp [stringBody, hunescape]
  · rw [hescape]
    simp [stringBody, hback]

theorem stringBody_escape (text done : List Char) (taken : Nat) (rest : List Char) :
    stringBody done taken (Token.escape text ++ '"' :: rest) =
      .accept { kind := .string, text := String.ofList (done.reverse ++ text) }
        (taken + (Token.escape text).length + 1) := by
  induction text generalizing done taken with
  | nil => simp [Token.escape, stringBody]
  | cons c text ih =>
    have hcons : Token.escape (c :: text) = Token.escapeChar c ++ Token.escape text := rfl
    rw [hcons, List.append_assoc, stringBody_escapeChar, ih]
    simp [Nat.add_assoc]

theorem registers_refuse {c : Char} (h : isNameChar c = false) (rest : List Char) :
    match? (registers Register.names) (c :: rest) = none := by
  refine ofEntries_none (ofEntries_heads_ne fun e he => ?_)
  have hne := (register_capitals (mem_of_mem_byLength he)).1
  rw [String.toList_ofList] at hne
  obtain ⟨s, tail, htext⟩ := List.exists_cons_of_ne_nil hne
  refine ⟨s, tail, htext, ?_⟩
  cases hsame : c == s with
  | false => rfl
  | true =>
    rw [registers_nameChars e he s (by simp [htext]) c hsame] at h
    cases h

theorem keywords_refuse {c : Char} (h : isNameChar c = false) (rest : List Char) :
    match? (keywords Mnemonic.names) (c :: rest) = none := by
  refine ofEntries_none (ofEntries_heads_ne fun e he => ?_)
  have hne := (keyword_capitals (mem_of_mem_byLength he)).1
  rw [String.toList_ofList] at hne
  obtain ⟨s, tail, htext⟩ := List.exists_cons_of_ne_nil hne
  refine ⟨s, tail, htext, ?_⟩
  cases hsame : sameFolded c s with
  | false => rfl
  | true =>
    rw [keywords_nameChars e he s (by simp [htext]) c hsame] at h
    cases h

/-- A quoted text is the first token, whatever follows. -/
theorem firstMatch?_quote (contents : String) (rest : List Char) :
    firstMatch? assembly ((Token.quote contents).toList ++ rest) =
      some (stringToken contents, (Token.quote contents).toList.length) := by
  have htext : (Token.quote contents).toList = '"' :: (Token.escape contents.toList ++ ['"']) := by
    rw [Token.quote, String.toList_ofList, List.cons_append]
  have hname : isNameChar '"' = false := by decide
  have hnumber : match? number ('"' :: (Token.escape contents.toList ++ ['"'] ++ rest)) = none :=
    number_refuse (by decide) (by decide) (by decide) _
  have hmarks : match? (symbols [",", "(", ")", ".", ":"])
      ('"' :: (Token.escape contents.toList ++ ['"'] ++ rest)) = none :=
    symbols_refuse (by decide) _
  have hstring : string ('"' :: (Token.escape contents.toList ++ ['"'] ++ rest)) =
      .accept (stringToken contents) (1 + (Token.escape contents.toList).length + 1) := by
    rw [string, List.append_assoc, List.singleton_append, stringBody_escape, List.reverse_nil,
      List.nil_append, String.ofList_toList, stringToken]
  have hlength : ('"' :: (Token.escape contents.toList ++ ['"'])).length =
      1 + (Token.escape contents.toList).length + 1 := by
    simp only [List.length_cons, List.length_append, List.length_nil]
    omega
  rw [htext, hlength, List.cons_append]
  rw [assembly, Lexer.language, firstMatch?_cons_none (blank_refuse (by decide) _),
    firstMatch?_cons_none (comment_refuse (by decide) _), firstMatch?_cons_none hmarks,
    firstMatch?_cons_none hnumber, firstMatch?_cons_none (registers_refuse hname _),
    firstMatch?_cons_none (keywords_refuse hname _),
    firstMatch?_cons_some (match?_accept hstring (Nat.succ_pos _) (List.cons_ne_nil _ _))]

/-- A quoted text is read as the text, whatever follows. -/
theorem lexes_quote (contents : String) :
    Lexes (Token.quote contents).toList [stringToken contents] := by
  intro rest
  have hne : (Token.quote contents).toList ≠ [] := by simp [Token.quote]
  exact scan_token hne (firstMatch?_quote contents rest) TokenKind.noConfusion

end RegAsm
