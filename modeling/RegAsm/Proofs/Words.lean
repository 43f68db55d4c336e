/-
RegAsm.Proofs.Words — names, registers and keywords are whole words.

A word is a run of letters, digits and underscores that starts with a letter
or an underscore.  Where a text starts with a word that does not run on, the
lexer takes the whole word, and whether it is a register, a keyword or a name
depends on the word alone (`firstMatch?_word`).  So a name that was read once
is read again wherever it is written (`scan_word`).

1. Character classes.
2. Tables of words.
3. Words.
4. Answers: what each recognizer accepts with, and how far it goes.
5. Names.
-/
import RegAsm.Proofs.Scanning

namespace RegAsm

open Machine

/-! ## 1. Character classes -/

namespace Text

theorem Ranges.exists_of_covers {rs : Ranges} {n : Nat} (h : rs.covers n = true) :
    ∃ r ∈ rs, r.1 ≤ n ∧ n ≤ r.2 := by
  induction rs with
  | nil => simp [covers] at h
  | cons r rs ih =>
    obtain ⟨lo, hi⟩ := r
    simp only [covers] at h
    split at h
    · cases h
    · rename_i hlo
      split at h
      · rename_i hhi
        exact ⟨(lo, hi), List.mem_cons_self, Nat.le_of_not_lt hlo, hhi⟩
      · obtain ⟨r, hr, hle⟩ := ih h
        exact ⟨r, List.mem_cons_of_mem _ hr, hle⟩

theorem letters_ge {n : Nat} (h : letters.covers n = true) : 65 ≤ n := by
  unfold letters at h
  rw [Ranges.covers] at h
  split at h
  · cases h
  · rename_i hlo
    exact Nat.le_of_not_lt hlo

theorem letters_of_upper {n : Nat} (hlo : 65 ≤ n) (hhi : n ≤ 90) : letters.covers n = true := by
  unfold letters
  rw [Ranges.covers, if_neg (by omega), if_pos (by omega)]

/-- White space is neither a letter nor an underscore. -/
theorem letters_of_blanks {n : Nat} (h : blanks.covers n = true) :
    letters.covers n = false ∧ n ≠ 95 := by
  have hall : ∀ r ∈ blanks, ∀ k ≤ r.2 - r.1, letters.covers (r.1 + k) = false ∧ r.1 + k ≠ 95 := by
    decide +kernel
  obtain ⟨r, hr, hlo, hhi⟩ := Ranges.exists_of_covers h
  have hk := hall r hr (n - r.1) (by omega)
  rwa [Nat.add_sub_cancel' hlo] at hk

theorem CaseRun.lookUp_cases (runs : List CaseRun) (c : Nat) :
    lookUp runs c = c ∨
      ∃ run ∈ runs, run.first ≤ c ∧ c ≤ run.last ∧
        lookUp runs c = run.target + (c - run.first) := by
  induction runs with
  | nil => exact .inl rfl
  | cons run rest ih =>
    rw [lookUp]
    split
    · exact .inl rfl
    · rename_i hlo
      split
      · rename_i hhi
        split
        · exact .inr ⟨run, List.mem_cons_self, Nat.le_of_not_lt hlo, hhi, rfl⟩
        · exact .inl rfl
      · rcases ih with h | ⟨run', hrun', h⟩
        · exact .inl h
        · exact .inr ⟨run', List.mem_cons_of_mem _ hrun', h⟩

/-- Whether a character is a plain capital. -/
def isCapital (c : Char) : Bool := 65 ≤ c.toNat && c.toNat ≤ 90

theorem isCapital_iff {c : Char} : isCapital c = true ↔ 65 ≤ c.toNat ∧ c.toNat ≤ 90 := by
  simp [isCapital]

/-- Only a letter has a plain capital as its counterpart. -/
theorem isLetter_of_upperCase {x : Char} (h : isCapital (upperCase x) = true) :
    isLetter x = true := by
  obtain ⟨hlo, hhi⟩ := isCapital_iff.mp h
  have hall : ∀ run ∈ caseRuns, run.target ≤ 90 →
      ∀ k ≤ run.last - run.first, letters.covers (run.first + k) = true := by decide +kernel
  have hvalue : (upperCase x).toNat = CaseRun.lookUp caseRuns x.toNat := by
    unfold upperCase at hlo ⊢
    unfold Char.ofNat at hlo ⊢
    split
    · rfl
    · rename_i hvalid
      rw [dif_neg hvalid] at hlo
      simp at hlo
  rw [hvalue] at hlo hhi
  rcases CaseRun.lookUp_cases caseRuns x.toNat with h | ⟨run, hrun, hfirst, hlast, h⟩
  · exact letters_of_upper (h ▸ hlo) (h ▸ hhi)
  · have hk := hall run hrun (by omega) (x.toNat - run.first) (by omega)
    rwa [Nat.add_sub_cancel' hfirst] at hk

theorem upperCase_capital {c : Char} (h : isCapital c = true) : upperCase c = c := by
  have hle := (isCapital_iff.mp h).2
  have hlookUp : CaseRun.lookUp caseRuns c.toNat = c.toNat := by
    unfold caseRuns
    rw [CaseRun.lookUp]
    exact if_pos (by show c.toNat < 97; omega)
  rw [upperCase, hlookUp, Char.ofNat_toNat]

/-- A capital in lower case has the capital as its counterpart. -/
theorem upperCase_toLower {c : Char} (h : isCapital c = true) :
    upperCase c.toLower = c ∧ 97 ≤ c.toLower.toNat := by
  have hall : ∀ n < 26, upperCase (Char.ofNat (65 + n)).toLower = Char.ofNat (65 + n) ∧
      97 ≤ (Char.ofNat (65 + n)).toLower.toNat := by decide +kernel
  obtain ⟨hlo, hhi⟩ := isCapital_iff.mp h
  have hn := hall (c.toNat - 65) (by omega)
  rwa [Nat.add_sub_cancel' hlo, Char.ofNat_toNat] at hn

end Text

/-! ## 2. Tables of words -/

namespace Recognizer

theorem mem_insertByLength {e e' : Entry} {entries : List Entry} :
    e ∈ insertByLength e' entries ↔ e = e' ∨ e ∈ entries := by
  induction entries with
  | nil => simp [insertByLength]
  | cons x entries ih =>
    rw [insertByLength]
    split
    · simp
    · simp only [List.mem_cons, ih]
      tauto

theorem mem_foldr_insertByLength {e : Entry} {entries : List Entry} :
    e ∈ entries.foldr insertByLength [] ↔ e ∈ entries := by
  induction entries with
  | nil => simp
  | cons x entries ih => rw [List.foldr_cons, mem_insertByLength, ih, List.mem_cons]

/-- Sorting a table by length keeps its entries. -/
theorem mem_byLength_iff {names : List String} {e : Entry} :
    e ∈ byLength names ↔ names[e.index]? = some (String.ofList e.text) := by
  rw [byLength, mem_foldr_insertByLength, List.mem_map]
  constructor
  · rintro ⟨⟨name, i⟩, hmem, rfl⟩
    rw [List.mem_zipIdx_iff_getElem?] at hmem
    simpa using hmem
  · intro h
    exact ⟨(String.ofList e.text, e.index), List.mem_zipIdx_iff_getElem?.mpr h, by simp⟩

theorem mem_of_mem_byLength {names : List String} {e : Entry} (h : e ∈ byLength names) :
    String.ofList e.text ∈ names :=
  List.mem_of_getElem? (mem_byLength_iff.mp h)

/-- Whether a spelling matches a word from its first to its last character. -/
def spellsWord (same : Char → Char → Bool) (spelling w : List Char) : Bool :=
  behind? same spelling w == some []

/-- A spelling matches a word if they match character by character. -/
theorem spellsWord_iff {same : Char → Char → Bool} {spelling w : List Char} :
    spellsWord same spelling w = true ↔ List.Forall₂ (fun x c => same x c = true) w spelling := by
  rw [spellsWord, beq_iff_eq]
  induction spelling generalizing w with
  | nil => cases w <;> simp [behind?]
  | cons c spelling ih =>
    cases w with
    | nil => simp [behind?]
    | cons x w =>
      rw [behind?, List.forall₂_cons, ← ih]
      cases same x c <;> simp

theorem spellsWord_eq_iff {spelling w : List Char} :
    spellsWord (· == ·) spelling w = true ↔ w = spelling := by
  rw [spellsWord_iff]
  simp only [beq_iff_eq, List.forall₂_eq_eq_eq]

theorem length_of_behind? {same : Char → Char → Bool} {spelling text rest : List Char}
    (h : behind? same spelling text = some rest) : text.length = spelling.length + rest.length := by
  induction spelling generalizing text with
  | nil => cases h; simp
  | cons c spelling ih =>
    cases text with
    | nil => simp [behind?] at h
    | cons x text =>
      rw [behind?] at h
      split at h
      · rw [List.length_cons, List.length_cons, ih h]
        omega
      · cases h

/-- Where a word does not run on, an entry that must not run on matches if it
spells the word. -/
theorem behind?_word {same : Char → Char → Bool} {spelling w rest : List Char}
    (hsame : ∀ c ∈ spelling, ∀ x, same x c = true → isNameChar x = true)
    (hw : ∀ c ∈ w, isNameChar c = true) (hrest : endsName rest = true) :
    (behind? same spelling (w ++ rest)).any endsName = spellsWord same spelling w := by
  induction spelling generalizing w with
  | nil =>
    cases w with
    | nil => simp [behind?, hrest, spellsWord]
    | cons c w => simp [behind?, endsName, hw c List.mem_cons_self, spellsWord]
  | cons s spelling ih =>
    have htail : ∀ c ∈ spelling, ∀ x, same x c = true → isNameChar x = true :=
      fun c hc => hsame c (List.mem_cons_of_mem s hc)
    cases w with
    | nil =>
      cases rest with
      | nil => simp [behind?, spellsWord]
      | cons x rest =>
        have hx : same x s = false := by
          cases hx : same x s with
          | false => rfl
          | true =>
            have hname := hsame s List.mem_cons_self x hx
            simp [endsName, hname] at hrest
        simp [behind?, hx, spellsWord]
    | cons x w =>
      have hcons := ih htail fun c hc => hw c (List.mem_cons_of_mem x hc)
      rw [List.cons_append, behind?, spellsWord, behind?]
      cases same x s with
      | false => rfl
      | true => simpa [spellsWord] using hcons

theorem entryAhead?_word {same : Char → Char → Bool} {entries : List Entry} {w rest : List Char}
    (hsame : ∀ e ∈ entries, ∀ c ∈ e.text, ∀ x, same x c = true → isNameChar x = true)
    (hw : ∀ c ∈ w, isNameChar c = true) (hrest : endsName rest = true) :
    entryAhead? same true entries (w ++ rest) =
      entries.find? fun e => spellsWord same e.text w := by
  unfold entryAhead?
  induction entries with
  | nil => rfl
  | cons e entries ih =>
    rw [List.find?_cons, List.find?_cons, ih fun e' he' => hsame e' (List.mem_cons_of_mem e he'),
      ← behind?_word (hsame e List.mem_cons_self) hw hrest]
    cases behind? same e.text (w ++ rest) <;> rfl

theorem sameFolded_iff {a b : Char} :
    sameFolded a b = true ↔ Text.upperCase a = Text.upperCase b := by
  simp only [sameFolded, Bool.or_eq_true, beq_iff_eq]
  constructor
  · rintro (rfl | h)
    · rfl
    · exact h
  · exact .inr

/-- Registers are spelled in plain capitals. -/
theorem register_capitals {name : String} (h : name ∈ Register.names) :
    name.toList ≠ [] ∧ ∀ c ∈ name.toList, Text.isCapital c = true := by
  have hall : Register.names.all
      (fun name => !name.toList.isEmpty && name.toList.all Text.isCapital) = true := by
    decide +kernel
  simpa using List.all_eq_true.mp hall name h

/-- Keywords are spelled in plain capitals. -/
theorem keyword_capitals {name : String} (h : name ∈ Mnemonic.names) :
    name.toList ≠ [] ∧ ∀ c ∈ name.toList, Text.isCapital c = true := by
  have hall : Mnemonic.names.all
      (fun name => !name.toList.isEmpty && name.toList.all Text.isCapital) = true := by
    decide +kernel
  simpa using List.all_eq_true.mp hall name h

theorem isNameChar_of_upperCase {x : Char} (h : Text.isCapital (Text.upperCase x) = true) :
    isNameChar x = true := by
  rw [isNameChar, Text.isLetter_of_upperCase h]
  rfl

theorem registers_nameChars : ∀ e ∈ byLength Register.names, ∀ c ∈ e.text, ∀ x,
    (x == c) = true → isNameChar x = true := by
  intro e he c hc x hx
  have hcapital := (register_capitals (mem_of_mem_byLength he)).2 c (by simpa using hc)
  rw [beq_iff_eq] at hx
  rw [hx]
  exact isNameChar_of_upperCase (by rwa [Text.upperCase_capital hcapital])

theorem keywords_nameChars : ∀ e ∈ byLength Mnemonic.names, ∀ c ∈ e.text, ∀ x,
    sameFolded x c = true → isNameChar x = true := by
  intro e he c hc x hx
  have hcapital := (keyword_capitals (mem_of_mem_byLength he)).2 c (by simpa using hc)
  rw [sameFolded_iff, Text.upperCase_capital hcapital] at hx
  exact isNameChar_of_upperCase (by rwa [hx])

end Recognizer

/-! ## 3. Words -/

/-- Whether a name can start with a character. -/
def startsName (c : Char) : Bool := Text.isLetter c || c == '_'

/-- A run of name characters that a name can start with. -/
structure IsWord (w : List Char) : Prop where
  head : ∃ c tail, w = c :: tail ∧ startsName c = true
  all : ∀ c ∈ w, Recognizer.isNameChar c = true

/-- The register of a name. -/
def registerWord? (w : List Char) : Option Recognizer.Entry :=
  (Recognizer.byLength Register.names).find? fun e => Recognizer.spellsWord (· == ·) e.text w

/-- The keyword of a name. -/
def keywordWord? (w : List Char) : Option Recognizer.Entry :=
  (Recognizer.byLength Mnemonic.names).find? fun e =>
    Recognizer.spellsWord Recognizer.sameFolded e.text w

/-- The token of a table entry. -/
def entryToken (kind : TokenKind) (e : Recognizer.Entry) : Token :=
  { kind, text := String.ofList e.text, id := e.index }

/-- The token that a word stands for. -/
def wordToken (w : List Char) : Token :=
  match registerWord? w with
  | some e => { kind := .register, text := String.ofList e.text, id := e.index }
  | none =>
    match keywordWord? w with
    | some e => { kind := .mnemonic, text := String.ofList e.text, id := e.index }
    | none => { kind := .identifier, text := String.ofList w }

theorem wordToken_of_register {w : List Char} {e : Recognizer.Entry}
    (h : registerWord? w = some e) : wordToken w = entryToken .register e := by
  delta wordToken
  rw [h, entryToken]

theorem wordToken_of_keyword {w : List Char} {e : Recognizer.Entry}
    (hregister : registerWord? w = none) (h : keywordWord? w = some e) :
    wordToken w = entryToken .mnemonic e := by
  delta wordToken
  rw [hregister, h, entryToken]

theorem wordToken_of_neither {w : List Char} (hregister : registerWord? w = none)
    (hkeyword : keywordWord? w = none) :
    wordToken w = { kind := .identifier, text := String.ofList w } := by
  delta wordToken
  rw [hregister, hkeyword]

/-- A word is a register, a keyword or a name. -/
theorem wordToken_cases (w : List Char) :
    (∃ e, registerWord? w = some e ∧ wordToken w = entryToken .register e) ∨
    (registerWord? w = none ∧ ∃ e, keywordWord? w = some e ∧
      wordToken w = entryToken .mnemonic e) ∨
    (registerWord? w = none ∧ keywordWord? w = none ∧
      wordToken w = { kind := .identifier, text := String.ofList w }) := by
  cases hregister : registerWord? w with
  | some e => exact .inl ⟨e, rfl, wordToken_of_register hregister⟩
  | none =>
    cases hkeyword : keywordWord? w with
    | some e => exact .inr (.inl ⟨rfl, e, rfl, wordToken_of_keyword hregister hkeyword⟩)
    | none => exact .inr (.inr ⟨rfl, rfl, wordToken_of_neither hregister hkeyword⟩)

/-- The recognizers of the assembly language, white space included. -/
def assembly : List Recognizer := .blank :: Lexer.language

/-- A character that a name can start with starts nothing else. -/
theorem startsName_spec {c : Char} (h : startsName c = true) :
    65 ≤ c.toNat ∧ Text.isBlank c = false := by
  simp only [startsName, Bool.or_eq_true, beq_iff_eq] at h
  refine ⟨?_, ?_⟩
  · rcases h with h | rfl
    · exact Text.letters_ge h
    · decide
  · cases hblank : Text.isBlank c with
    | false => rfl
    | true =>
      obtain ⟨hletter, hunder⟩ := Text.letters_of_blanks hblank
      rcases h with h | rfl
      · rw [Text.isLetter, hletter] at h
        cases h
      · exact absurd rfl hunder

namespace Recognizer

theorem match?_refuse {r : Recognizer} {text : List Char} {n : Nat} (h : r text = .refuse n) :
    match? r text = none := by
  simp [match?, h, Attempt.refuse]

theorem match?_accept {r : Recognizer} {text : List Char} {token : Token} {n : Nat}
    (h : r text = .accept token n) (hn : 0 < n) (htext : text ≠ []) :
    match? r text = some (token, n) := by
  simp [match?, h, Attempt.accept, hn, htext]

theorem firstMatch?_cons_none {r : Recognizer} {text : List Char} (h : match? r text = none)
    (rs : List Recognizer) : firstMatch? (r :: rs) text = firstMatch? rs text := by
  rw [firstMatch?, firstMatch?, List.findSome?_cons, h]

theorem firstMatch?_cons_some {r : Recognizer} {text : List Char} {answer : Token × Nat}
    (h : match? r text = some answer) (rs : List Recognizer) :
    firstMatch? (r :: rs) text = some answer := by
  rw [firstMatch?, List.findSome?_cons, h]

theorem ofEntries_none {kind : TokenKind} {same : Char → Char → Bool} {bounded : Bool}
    {entries : List Entry} {text : List Char} (h : entryAhead? same bounded entries text = none) :
    match? (ofEntries kind same bounded entries) text = none :=
  match?_refuse (by rw [ofEntries, h])

/-- No entry matches if none starts like the text. -/
theorem ofEntries_heads_ne {same : Char → Char → Bool} {bounded : Bool} {entries : List Entry}
    {c : Char} {rest : List Char}
    (h : ∀ e ∈ entries, ∃ s tail, e.text = s :: tail ∧ same c s = false) :
    entryAhead? same bounded entries (c :: rest) = none := by
  rw [entryAhead?, List.find?_eq_none]
  intro e he
  obtain ⟨s, tail, htext, hsame⟩ := h e he
  simp [htext, behind?, hsame]

theorem blank_refuse {c : Char} (h : Text.isBlank c = false) (rest : List Char) :
    match? blank (c :: rest) = none := by
  simp [match?, blank, h]

theorem comment_refuse {c lead : Char} (h : c ≠ lead) (rest : List Char) :
    match? (comment lead) (c :: rest) = none :=
  match?_refuse (by rw [comment, if_neg h])

/-- The punctuation of the assembly language. -/
def marks : List String := [",", "(", ")", ".", ":"]

theorem symbols_refuse {c : Char} (h : ∀ s ∈ marks, s.toList.head? ≠ some c) (rest : List Char) :
    match? (symbols marks) (c :: rest) = none := by
  refine ofEntries_none (ofEntries_heads_ne ?_)
  have hall : ∀ e ∈ byLength marks, ∃ s ∈ marks, e.text = s.toList ∧ e.text.length = 1 := by
    decide
  intro e he
  obtain ⟨s, hs, htext, hlen⟩ := hall e he
  obtain ⟨d, hd⟩ := List.length_eq_one_iff.mp hlen
  refine ⟨d, [], hd, ?_⟩
  have hne := h s hs
  rw [← htext, hd, List.head?_cons] at hne
  exact beq_eq_false_iff_ne.mpr fun heq => hne (congrArg some heq.symm)

theorem number_refuse {c : Char} (hdollar : c ≠ '$') (hdigit : isPlainDigit c = false)
    (hquote : c ≠ '\'') (rest : List Char) : match? number (c :: rest) = none :=
  match?_refuse (by rw [number, if_neg hdollar, hdigit, if_neg Bool.false_ne_true, if_neg hquote])

theorem string_refuse {c : Char} (h : c ≠ '"') (rest : List Char) :
    match? string (c :: rest) = none := by
  have hrefuse : string (c :: rest) = .refuse 0 := by
    unfold string
    split
    · rename_i heq
      cases heq
      exact absurd rfl h
    · rfl
  exact match?_refuse hrefuse

/-- A table of words matches the entry that spells the whole word. -/
theorem ofEntries_word (kind : TokenKind) {same : Char → Char → Bool} {entries : List Entry}
    {w rest : List Char}
    (hsame : ∀ e ∈ entries, ∀ c ∈ e.text, ∀ x, same x c = true → isNameChar x = true)
    (hw : ∀ c ∈ w, isNameChar c = true) (hne : w ≠ []) (hrest : endsName rest = true) :
    match? (ofEntries kind same true entries) (w ++ rest) =
      (entries.find? fun e => spellsWord same e.text w).map fun e =>
        (entryToken kind e, w.length) := by
  have hfind := entryAhead?_word hsame hw hrest
  cases he : entries.find? fun e => spellsWord same e.text w with
  | none => exact ofEntries_none (hfind.trans he)
  | some e =>
    have hspells : behind? same e.text w = some [] := by
      simpa [spellsWord] using List.find?_some he
    have hlen : w.length = e.text.length := by simpa using length_of_behind? hspells
    have hpos : 0 < e.text.length := hlen ▸ List.length_pos_iff.mpr hne
    rw [Option.map_some, hlen]
    exact match?_accept (by rw [ofEntries, hfind, he, entryToken]) hpos (by simp [hne])

end Recognizer

open Recognizer

theorem takeWhile_word {w rest : List Char} (hw : ∀ c ∈ w, isNameChar c = true)
    (hrest : endsName rest = true) : (w ++ rest).takeWhile isNameChar = w := by
  rw [List.takeWhile_append_of_pos hw]
  cases rest with
  | nil => simp
  | cons c rest =>
    have hc : isNameChar c = false := by simpa [endsName] using hrest
    simp [hc]

/-- Where a text starts with a word that does not run on, the word is the next
token. -/
theorem firstMatch?_word {w rest : List Char} (hw : IsWord w) (hrest : endsName rest = true) :
    firstMatch? assembly (w ++ rest) = some (wordToken w, w.length) := by
  obtain ⟨c, tail, rfl, hc⟩ := hw.head
  obtain ⟨hge, hblank⟩ := startsName_spec hc
  have hne : ∀ d : Char, d.toNat < 65 → c ≠ d := by
    rintro d hd rfl
    omega
  have hmarks : ∀ s ∈ marks, s.toList.head? ≠ some c := by
    have hall : marks.all (fun s => s.toList.head?.all (·.toNat < 65)) = true := by decide
    intro s hs heq
    have hlt := List.all_eq_true.mp hall s hs
    rw [heq, Option.all_some, decide_eq_true_eq] at hlt
    omega
  have hdigit : isPlainDigit c = false := by
    simp only [isPlainDigit, Bool.and_eq_false_iff, decide_eq_false_iff_not]
    right
    intro hle
    have : c.toNat ≤ '9'.toNat := hle
    exact absurd (Nat.le_trans hge this) (by decide)
  have hreg : match? (registers Register.names) (c :: tail ++ rest) =
      (registerWord? (c :: tail)).map fun e => (entryToken .register e, (c :: tail).length) :=
    ofEntries_word .register registers_nameChars hw.all (by simp) hrest
  have hkey : match? (keywords Mnemonic.names) (c :: tail ++ rest) =
      (keywordWord? (c :: tail)).map fun e => (entryToken .mnemonic e, (c :: tail).length) :=
    ofEntries_word .mnemonic keywords_nameChars hw.all (by simp) hrest
  have hname : match? identifier (c :: tail ++ rest) =
      some ({ kind := .identifier, text := String.ofList (c :: tail) }, (c :: tail).length) := by
    have hrun := takeWhile_word hw.all hrest
    have hstart : (Text.isLetter c || c == '_') = true := hc
    refine match?_accept ?_ (by simp) (by simp)
    rw [List.cons_append] at hrun ⊢
    rw [identifier, if_pos hstart, hrun]
  have hsymbols : match? (symbols [",", "(", ")", ".", ":"]) (c :: (tail ++ rest)) = none :=
    symbols_refuse hmarks _
  rw [List.cons_append] at hreg hkey hname ⊢
  rw [assembly, Lexer.language, firstMatch?_cons_none (blank_refuse hblank _),
    firstMatch?_cons_none (comment_refuse (hne ';' (by decide)) _), firstMatch?_cons_none hsymbols,
    firstMatch?_cons_none (number_refuse (hne '$' (by decide)) hdigit (hne '\'' (by decide)) _)]
  obtain ⟨e, hr, heq⟩ | ⟨hr, e, hk, heq⟩ | ⟨hr, hk, heq⟩ := wordToken_cases (c :: tail)
  · rw [hr, Option.map_some] at hreg
    rw [heq, firstMatch?_cons_some hreg]
  · rw [hr, Option.map_none] at hreg
    rw [hk, Option.map_some] at hkey
    rw [heq, firstMatch?_cons_none hreg, firstMatch?_cons_some hkey]
  · rw [hr, Option.map_none] at hreg
    rw [hk, Option.map_none] at hkey
    rw [heq, firstMatch?_cons_none hreg, firstMatch?_cons_none hkey,
      firstMatch?_cons_none (string_refuse (hne '"' (by decide)) _), firstMatch?_cons_some hname]

theorem isNameChar_of_startsName {c : Char} (h : startsName c = true) : isNameChar c = true := by
  simp only [startsName, Bool.or_eq_true] at h
  simp only [isNameChar, Bool.or_eq_true]
  rcases h with h | h
  · exact .inl (.inl h)
  · exact .inr h

/-- A run of name characters is a word if a name can start with the first. -/
theorem isWord_takeWhile {c : Char} (h : startsName c = true) (rest : List Char) :
    IsWord ((c :: rest).takeWhile isNameChar) := by
  refine ⟨⟨c, rest.takeWhile isNameChar, ?_, h⟩, List.all_eq_true.mp List.all_takeWhile⟩
  rw [List.takeWhile_cons, if_pos (isNameChar_of_startsName h)]

theorem endsName_dropWhile (text : List Char) : endsName (text.dropWhile isNameChar) = true := by
  cases hdrop : text.dropWhile isNameChar with
  | nil => rfl
  | cons d tail =>
    have hd := List.head?_dropWhile_not isNameChar text
    rw [hdrop] at hd
    simpa [endsName] using hd

/-- Where a name can start, the whole run of name characters is the next token. -/
theorem firstMatch?_run {c : Char} (h : startsName c = true) (rest : List Char) :
    firstMatch? assembly (c :: rest) =
      some (wordToken ((c :: rest).takeWhile isNameChar),
        ((c :: rest).takeWhile isNameChar).length) := by
  have hfirst := firstMatch?_word (isWord_takeWhile h rest) (endsName_dropWhile (c :: rest))
  rwa [List.takeWhile_append_dropWhile] at hfirst

/-- The token of a word has no place. -/
theorem unplaced_wordToken (w : List Char) : (wordToken w).unplaced = wordToken w := by
  obtain ⟨e, -, h⟩ | ⟨-, e, -, h⟩ | ⟨-, -, h⟩ := wordToken_cases w <;> rw [h] <;> rfl

theorem wordToken_kind (w : List Char) : (wordToken w).kind ≠ .whitespace := by
  obtain ⟨e, -, h⟩ | ⟨-, e, -, h⟩ | ⟨-, -, h⟩ := wordToken_cases w
  all_goals
    rw [h]
    exact TokenKind.noConfusion

/-- A word that does not run on is taken off the front of a text. -/
theorem scan_word {w rest : List Char} (hw : IsWord w) (hrest : endsName rest = true) :
    scan assembly (w ++ rest) = wordToken w :: scan assembly rest := by
  obtain ⟨c, tail, rfl, -⟩ := hw.head
  rw [scan_token (by simp) (firstMatch?_word hw hrest) (wordToken_kind _), unplaced_wordToken]

/-! ## 4. Answers -/

/-- The token of a number. -/
def numberToken (spelling : List Char) (v : UInt32) : Token :=
  { kind := .number, text := String.ofList spelling, value := v }

/-- The token of a string. -/
def stringToken (contents : String) : Token := { kind := .string, text := contents }

namespace Recognizer

theorem match?_eq_some {r : Recognizer} {text : List Char} {token : Token} {n : Nat}
    (h : match? r text = some (token, n)) : (r text).accepted = true ∧ (r text).token = token := by
  simp only [match?, Option.ite_none_right_eq_some, Bool.and_eq_true, Option.some.injEq,
    Prod.mk.injEq] at h
  exact ⟨h.1.1.1, h.2.1⟩

/-- A table answers with one of its entries, which the text is long enough
for. -/
theorem ofEntries_spec {kind : TokenKind} {same : Char → Char → Bool} {bounded : Bool}
    {entries : List Entry} {text : List Char}
    (h : (ofEntries kind same bounded entries text).accepted = true) :
    ∃ e ∈ entries, e.text.length ≤ text.length ∧
      ofEntries kind same bounded entries text = .accept (entryToken kind e) e.text.length := by
  unfold ofEntries at h ⊢
  split
  · rename_i e he
    have hfound := List.find?_some he
    refine ⟨e, List.mem_of_find?_eq_some he, ?_, rfl⟩
    cases hbehind : behind? same e.text text with
    | none => simp [hbehind] at hfound
    | some rest =>
      rw [length_of_behind? hbehind]
      exact Nat.le_add_right _ _
  · rename_i hnone
    rw [hnone] at h
    cases h

theorem ofEntries_kind {kind : TokenKind} {same : Char → Char → Bool} {bounded : Bool}
    {entries : List Entry} {text : List Char}
    (h : (ofEntries kind same bounded entries text).accepted = true) :
    (ofEntries kind same bounded entries text).token.kind = kind := by
  obtain ⟨e, -, -, heq⟩ := ofEntries_spec h
  rw [heq]
  rfl

/-- A string literal answers with its contents, inside the text. -/
theorem stringBody_spec {done : List Char} {taken : Nat} {text : List Char}
    (h : (stringBody done taken text).accepted = true) :
    ∃ contents n, n ≤ taken + text.length ∧
      stringBody done taken text = .accept (stringToken contents) n := by
  fun_induction stringBody done taken text with
  | case2 done taken rest =>
    refine ⟨_, taken + 1, ?_, rfl⟩
    rw [List.length_cons]
    omega
  | case5 _ _ _ _ _ _ ih =>
    obtain ⟨contents, n, hn, heq⟩ := ih h
    refine ⟨contents, n, ?_, heq⟩
    simp only [List.length_cons]
    omega
  | case7 _ _ _ _ _ _ _ _ ih =>
    obtain ⟨contents, n, hn, heq⟩ := ih h
    refine ⟨contents, n, ?_, heq⟩
    rw [List.length_cons]
    omega
  | _ => cases h

theorem closeCharacter_spec {c : Char} {taken : Nat} {text : List Char}
    (h : (closeCharacter c taken text).accepted = true) :
    0 < text.length ∧ closeCharacter c taken text = .accept (characterToken c) (taken + 1) := by
  cases text with
  | nil => cases h
  | cons q rest =>
    rw [closeCharacter] at h ⊢
    split at h
    · rename_i hq
      rw [if_pos hq]
      exact ⟨Nat.succ_pos _, rfl⟩
    · cases h

/-- A character literal answers with its character, inside the text. -/
theorem character_spec {text : List Char} (h : (character text).accepted = true) :
    ∃ c n, n ≤ text.length + 1 ∧ character text = .accept (characterToken c) n := by
  revert h
  fun_cases character text with
  | case5 e rest c =>
    intro h
    obtain ⟨hpos, heq⟩ := closeCharacter_spec h
    refine ⟨c, 4, ?_, heq⟩
    simp only [List.length_cons]
    omega
  | case7 c rest =>
    intro h
    obtain ⟨hpos, heq⟩ := closeCharacter_spec h
    refine ⟨c, 3, ?_, heq⟩
    rw [List.length_cons]
    omega
  | _ => intro h; cases h

/-- A run of digits answers with a number or, if its value is too large, with
an illegal token. -/
theorem digits_spec {base : Nat} {lead text : List Char}
    (h : (digits base lead text).accepted = true) :
    text.takeWhile (isDigitOf base) ≠ [] ∧ ∃ token : Token,
      (token.kind = .illegal ∨
        ∃ v, token = numberToken (lead ++ text.takeWhile (isDigitOf base)) v) ∧
      digits base lead text =
        .accept token (lead.length + (text.takeWhile (isDigitOf base)).length) := by
  unfold digits at h ⊢
  simp only at h ⊢
  split at h
  · cases h
  · rename_i hrun
    rw [if_neg hrun]
    refine ⟨by simpa using hrun, ?_⟩
    split
    · exact ⟨_, .inl rfl, rfl⟩
    · exact ⟨_, .inr ⟨_, rfl⟩, rfl⟩

/-- A number is answered with inside the text. -/
theorem digits_answer {base : Nat} {lead text : List Char}
    (h : (digits base lead text).accepted = true) :
    ((digits base lead text).token.kind = .number ∨
      (digits base lead text).token.kind = .illegal) ∧
      (digits base lead text).taken ≤ lead.length + text.length := by
  obtain ⟨-, token, hkind, heq⟩ := digits_spec h
  rw [heq]
  refine ⟨?_, Nat.add_le_add_left (List.takeWhile_sublist _).length_le _⟩
  rcases hkind with hkind | ⟨v, rfl⟩
  · exact .inr hkind
  · exact .inl rfl

theorem number_spec {text : List Char} (h : (number text).accepted = true) :
    ((number text).token.kind = .number ∨ (number text).token.kind = .illegal) ∧
      (number text).taken ≤ text.length := by
  revert h
  fun_cases number text with
  | case2 rest =>
    intro h
    obtain ⟨hkind, hle⟩ := digits_answer h
    refine ⟨hkind, ?_⟩
    simpa [Nat.add_comm] using hle
  | case3 c rest =>
    intro h
    obtain ⟨hkind, hle⟩ := digits_answer h
    refine ⟨hkind, ?_⟩
    simpa using hle
  | case4 rest =>
    intro h
    obtain ⟨c, n, hn, heq⟩ := character_spec h
    rw [heq]
    exact ⟨.inl rfl, hn⟩
  | _ => intro h; cases h

/-- Only one recognizer answers with registers, and only one with names. -/
theorem accepted_cases {r : Recognizer} (hr : r ∈ assembly) {text : List Char}
    (haccepted : (r text).accepted = true) :
    r = registers Register.names ∨ r = identifier ∨
      (r text).token.kind ≠ .register ∧ (r text).token.kind ≠ .identifier := by
  simp only [assembly, Lexer.language, List.mem_cons, List.not_mem_nil, or_false] at hr
  rcases hr with rfl | rfl | rfl | rfl | rfl | rfl | rfl | rfl
  · exact .inr (.inr ⟨nofun, nofun⟩)
  · right; right
    cases text with
    | nil => cases haccepted
    | cons c rest =>
      rw [comment]
      split <;> exact ⟨nofun, nofun⟩
  · right; right
    rw [symbols, ofEntries_kind haccepted]
    exact ⟨nofun, nofun⟩
  · right; right
    rcases (number_spec haccepted).1 with h | h <;> rw [h] <;> exact ⟨nofun, nofun⟩
  · exact .inl rfl
  · right; right
    rw [keywords, ofEntries_kind haccepted]
    exact ⟨nofun, nofun⟩
  · right; right
    revert haccepted
    fun_cases string text with
    | case1 rest =>
      intro haccepted
      obtain ⟨contents, n, -, heq⟩ := stringBody_spec haccepted
      rw [heq]
      exact ⟨nofun, nofun⟩
    | case2 => intro haccepted; cases haccepted
  · exact .inr (.inl rfl)

/-- Only the recognizer of names answers with a name. -/
theorem startsName_of_identifier {r : Recognizer} (hr : r ∈ assembly) {text : List Char}
    {token : Token} {n : Nat} (h : match? r text = some (token, n))
    (hkind : token.kind = .identifier) : ∃ c rest, text = c :: rest ∧ startsName c = true := by
  obtain ⟨haccepted, rfl⟩ := match?_eq_some h
  rcases accepted_cases hr haccepted with rfl | rfl | ⟨-, hne⟩
  · rw [registers, ofEntries_kind haccepted] at hkind
    cases hkind
  · cases text with
    | nil => cases haccepted
    | cons c rest =>
      refine ⟨c, rest, rfl, ?_⟩
      rw [identifier] at haccepted
      split at haccepted
      · assumption
      · cases haccepted
  · exact absurd hkind hne

end Recognizer

/-! ## 5. Names -/

/-- A text that is read as a name. -/
structure IsName (s : String) : Prop where
  word : IsWord s.toList
  kind : (wordToken s.toList).kind = .identifier

theorem wordToken_eq_of_kind {w : List Char} (h : (wordToken w).kind = .identifier) :
    wordToken w = { kind := .identifier, text := String.ofList w } := by
  obtain ⟨e, -, hw⟩ | ⟨-, e, -, hw⟩ | ⟨-, -, hw⟩ := wordToken_cases w
  · rw [hw] at h
    cases h
  · rw [hw] at h
    cases h
  · exact hw

theorem IsName.wordToken_eq {s : String} (h : IsName s) :
    wordToken s.toList = { kind := .identifier, text := s } := by
  rw [wordToken_eq_of_kind h.kind, String.ofList_toList]

theorem isName_wordToken {w : List Char} (hw : IsWord w)
    (hkind : (wordToken w).unplaced.kind = .identifier) : IsName (wordToken w).unplaced.text := by
  rw [unplaced_wordToken] at hkind ⊢
  have htext : (wordToken w).text = String.ofList w := by rw [wordToken_eq_of_kind hkind]
  rw [htext]
  refine ⟨?_, ?_⟩
  · rwa [String.toList_ofList]
  · rwa [String.toList_ofList]

/-- A name does not start with a dot. -/
theorem IsName.head_ne_dot {s : String} (h : IsName s) : s.toList.head? ≠ some '.' := by
  obtain ⟨c, tail, htext, hc⟩ := h.word.head
  rw [htext, List.head?_cons]
  rintro ⟨⟩
  exact absurd (startsName_spec hc).1 (by decide)

/-- The name tokens of a text are names. -/
theorem isName_of_mem_scan {text : List Char} {token : Token} (h : token ∈ scan assembly text)
    (hkind : token.kind = .identifier) : IsName token.text := by
  rcases mem_scan h with rfl | hill | ⟨token', text', taken, rfl, hmatch⟩
  · cases hkind
  · rw [hkind] at hill
    cases hill
  · obtain ⟨r, hr, hr'⟩ := List.exists_of_findSome?_eq_some hmatch
    obtain ⟨c, rest, rfl, hc⟩ := Recognizer.startsName_of_identifier hr hr' hkind
    have hfirst := firstMatch?_run hc rest
    rw [hmatch] at hfirst
    cases hfirst
    exact isName_wordToken (isWord_takeWhile hc rest) hkind

end RegAsm
