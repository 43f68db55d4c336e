/-
RegAsm.Proofs.Canonical — the tokens of a source, written down, are read again.

A token does not keep how it was written: a keyword comes out as its table
spells it, a character literal with the escape it needs, a string with its
contents decoded.  Each kind of token has one spelling that it is written with
(`Token.spelling`).  A spelling is read by the same rule as the token was,
whatever stands behind the space that ends it; so the tokens of a source that
are joined with spaces are read as the same tokens (`tokenize_respell`).

1. Spellings.
2. Literals that were read.
3. A spelling is read as its token.
4. All tokens.
-/
import Mathlib
import RegAsm.Proofs.Partition
import RegAsm.Proofs.Spelling

namespace RegAsm

open Machine Recognizer

/-! ## 1. Spellings -/

/-- How a token is written: a string between its quotes, all else as its text. -/
def Token.spelling (t : Token) : String :=
  if t.kind = .string then Token.quote t.text else t.text

/-- Tokens written down with single spaces between them.  The end token is not
written. -/
def respell (tokens : List Token) : String :=
  " ".intercalate ((tokens.filter (·.kind ≠ .eof)).map Token.spelling)

/-- A token whose spelling is read as the token, unless a name runs on behind
it. -/
def Token.Rereads (t : Token) : Prop := LexesOpen t.spelling.toList [t.unplaced]

/-- The rules of the assembly language. -/
def languageRules : List LexRule :=
  [.comment ';', .symbols marks, .number, .registers Register.names, .keywords Mnemonic.names,
    .string, .identifier]

/-! ## 2. Literals that were read -/

namespace Recognizer

/-- A number that was read from digits is read again from its run of them. -/
theorem digits_again {base : Nat} {lead text : List Char}
    (h : (digits base lead text).accepted = true)
    (hkind : (digits base lead text).token.kind ≠ .illegal) :
    ∃ run v, run ≠ [] ∧ (∀ c ∈ run, isDigitOf base c = true) ∧
      (digits base lead text).token = numberToken (lead ++ run) v ∧
      ∀ rest, endsName rest = true → digits base lead (run ++ rest) =
        .accept (numberToken (lead ++ run) v) (lead.length + run.length) := by
  obtain ⟨hne, token, htoken, heq⟩ := digits_spec h
  rw [heq] at hkind
  obtain ⟨v, rfl⟩ := htoken.resolve_left hkind
  have hrun : ∀ c ∈ text.takeWhile (isDigitOf base), isDigitOf base c = true :=
    List.all_eq_true.mp List.all_takeWhile
  refine ⟨text.takeWhile (isDigitOf base), v, hne, hrun, by rw [heq]; rfl, ?_⟩
  -- The answer depends on the run of digits alone, which is the same there.
  intro rest hrest
  rw [← heq]
  unfold digits
  rw [takeWhile_digits hrun hrest]

/-- An escaped character between single quotes is read as the character. -/
theorem character_escapeChar (c : Char) (rest : List Char) :
    character (Token.escapeChar c ++ '\'' :: rest) =
      .accept (characterToken c) ((Token.escapeChar c).length + 2) := by
  rcases escapeChar_cases c with ⟨e, hescape, hunescape⟩ | ⟨hescape, hlf, -, hquote, hback⟩
  · rw [hescape]
    simp [character, closeCharacter, hunescape]
  · rw [hescape]
    simp [character, closeCharacter, hback]

/-- An escaped character between single quotes is the first token, whatever
follows. -/
theorem firstMatch?_character (c : Char) (rest : List Char) :
    firstMatch? assembly ('\'' :: (Token.escapeChar c ++ ['\'']) ++ rest) =
      some (characterToken c, ('\'' :: (Token.escapeChar c ++ ['\''])).length) := by
  have hnumber : number ('\'' :: (Token.escapeChar c ++ ['\''] ++ rest)) =
      .accept (characterToken c) ((Token.escapeChar c).length + 2) := by
    rw [List.append_assoc, List.singleton_append]
    exact character_escapeChar c rest
  have hlength : ('\'' :: (Token.escapeChar c ++ ['\''])).length =
      (Token.escapeChar c).length + 2 := by
    simp
  rw [hlength]
  exact firstMatch?_number (by decide) (by decide) (by decide) hnumber (Nat.succ_pos _)

end Recognizer

/-! ## 3. A spelling is read as its token -/

theorem byLength_marks : byLength marks = markChars.map fun c => ⟨[c], markChars.idxOf c⟩ := by
  decide

namespace Token

theorem rereads_mark {e : Entry} (he : e ∈ byLength marks) : (entryToken .symbol e).Rereads := by
  rw [byLength_marks, List.mem_map] at he
  obtain ⟨c, hc, rfl⟩ := he
  have hspelling : (markToken c).spelling.toList = [c] := by
    simp [spelling, markToken]
  show (markToken c).Rereads
  rw [Rereads, hspelling]
  exact (lexes_mark hc).opened

/-- An entry of a table of words is read again if its text is a word for it. -/
theorem rereads_entry {kind : TokenKind} {e : Entry} (hkind : kind ≠ .string)
    (h : IsWord e.text ∧ wordToken e.text = entryToken kind e) :
    (entryToken kind e).Rereads := by
  obtain ⟨hword, hagain⟩ := h
  have hspelling : (entryToken kind e).spelling.toList = e.text := by
    simp [spelling, entryToken, hkind]
  rw [Rereads, hspelling, ← hagain, unplaced_wordToken]
  exact lexesOpen_word hword

theorem rereads_hex {rest : List Char} (h : (digits 16 ['$'] rest).accepted = true)
    (hkind : (digits 16 ['$'] rest).token.kind ≠ .illegal) :
    (digits 16 ['$'] rest).token.Rereads := by
  obtain ⟨run, v, -, -, htoken, hagain⟩ := digits_again h hkind
  have hspelling : (numberToken ('$' :: run) v).spelling.toList = '$' :: run := by
    simp [spelling, numberToken]
  rw [htoken, List.singleton_append, Rereads, hspelling]
  exact lexesOpen_dollar hagain

theorem rereads_decimal {text : List Char} (h : (digits 10 [] text).accepted = true)
    (hkind : (digits 10 [] text).token.kind ≠ .illegal) : (digits 10 [] text).token.Rereads := by
  obtain ⟨run, v, hne, hrun, htoken, hagain⟩ := digits_again h hkind
  have hspelling : (numberToken run v).spelling.toList = run := by
    simp [spelling, numberToken]
  rw [htoken, List.nil_append, Rereads, hspelling]
  exact lexesOpen_plain hne hrun hagain

theorem rereads_character (c : Char) : (characterToken c).Rereads := by
  have hspelling : (characterToken c).spelling.toList = '\'' :: (escapeChar c ++ ['\'']) := by
    simp [spelling, characterToken]
  rw [Rereads, hspelling]
  intro rest _
  exact scan_token (List.cons_ne_nil _ _) (firstMatch?_character c rest) TokenKind.noConfusion

theorem rereads_string (contents : String) : (stringToken contents).Rereads :=
  (lexes_quote contents).opened

theorem rereads_name {name : String} (h : IsName name) :
    Rereads { kind := .identifier, text := name } :=
  lexes_name h

/-- Every number that fits 32 bits is read again, however it was written. -/
theorem rereads_number {text : List Char} (h : (number text).accepted = true)
    (hkind : (number text).token.kind ≠ .illegal) : (number text).token.Rereads := by
  revert h hkind
  fun_cases number text with
  | case2 rest => exact rereads_hex
  | case3 c rest => exact rereads_decimal
  | case4 rest =>
    intro h _
    obtain ⟨c, n, -, heq⟩ := character_spec h
    rw [heq]
    exact rereads_character c
  | _ => intro h; cases h

end Token

/-- What a rule of the language answers with is read again. -/
theorem LexRule.rereads {rule : LexRule} (hrule : rule ∈ LexRule.blank :: languageRules)
    {text : List Char} {token : Token} {taken : Nat}
    (h : rule.recognizer.match? text = some (token, taken)) (hspace : token.kind ≠ .whitespace)
    (hlegal : token.kind ≠ .illegal) (hname : token.kind = .identifier → IsName token.text) :
    token.Rereads := by
  have hkinds := (match?_spec h).1
  obtain ⟨haccepted, rfl⟩ := match?_eq_some h
  simp only [languageRules, List.mem_cons, List.not_mem_nil, or_false] at hrule
  rcases hrule with rfl | rfl | rfl | rfl | rfl | rfl | rfl | rfl
  · exact absurd (List.mem_singleton.mp hkinds) hspace
  · exact absurd (List.mem_singleton.mp hkinds) hspace
  · simp only [recognizer, Recognizer.symbols] at haccepted ⊢
    obtain ⟨e, he, -, heq⟩ := ofEntries_spec haccepted
    rw [heq]
    exact Token.rereads_mark he
  · exact Token.rereads_number haccepted hlegal
  · simp only [recognizer, Recognizer.registers] at haccepted ⊢
    obtain ⟨e, he, -, heq⟩ := ofEntries_spec haccepted
    rw [heq]
    exact Token.rereads_entry TokenKind.noConfusion (wordToken_registerEntry he)
  · simp only [recognizer, Recognizer.keywords] at haccepted ⊢
    obtain ⟨e, he, -, heq⟩ := ofEntries_spec haccepted
    rw [heq]
    exact Token.rereads_entry TokenKind.noConfusion (wordToken_keywordEntry he)
  · simp only [recognizer] at haccepted ⊢
    revert haccepted
    fun_cases Recognizer.string text with
    | case1 rest =>
      intro haccepted
      obtain ⟨contents, n, -, heq⟩ := stringBody_spec haccepted
      rw [heq]
      exact Token.rereads_string contents
    | case2 => intro haccepted; cases haccepted
  · cases text with
    | nil => cases haccepted
    | cons c rest =>
      simp only [recognizer, Recognizer.identifier] at haccepted hname ⊢
      split at haccepted
      · rename_i hstart
        rw [if_pos hstart] at hname ⊢
        exact Token.rereads_name (hname rfl)
      · cases haccepted

/-! ## 4. All tokens -/

/-- The tokens of a source and the end token; those that are not illegal are
read again from their spellings. -/
theorem tokenize_rereads (source : String) :
    ∃ tokens, tokenize source = tokens ++ [Lexer.endOf source.toList] ∧
      ∀ t ∈ tokens, t.kind ≠ .eof ∧ (t.kind ≠ .illegal → t.Rereads) := by
  obtain ⟨tokens, spans, gaps, htokens, -, hpart⟩ :=
    Lexer.completes_takeOnto (Lexer.at_ofText source.toList languageRules)
      (n := source.toList.length + 1) (by omega) #[]
  have hsource : tokenize source = tokens ++ [Lexer.endOf source.toList] := htokens
  refine ⟨tokens, hsource, fun t ht => ⟨hpart.kind_ne t ht, fun hlegal => ?_⟩⟩
  obtain ⟨s, hyields⟩ := hpart.exists_span ht
  have hname : t.kind = .identifier → IsName t.text :=
    isName_of_mem_tokenize (hsource ▸ List.mem_append_left _ ht)
  rcases hyields.answer with ⟨token, hfirst, hspace, heq⟩ | ⟨-, -, c, -, heq⟩
  · obtain ⟨rule, hrule, hmatch⟩ := exists_of_firstMatch? hfirst
    rw [heq] at hlegal hname ⊢
    have hrereads := rule.rereads hrule hmatch hspace hlegal hname
    exact hrereads
  · exact absurd (congrArg Token.kind heq) hlegal

/-- Tokens that are each read again are read again together. -/
theorem lexes_spellings {tokens : List Token} (h : ∀ t ∈ tokens, t.Rereads) :
    LexesOpen (" ".intercalate (tokens.map Token.spelling)).toList (tokens.map Token.unplaced) := by
  induction tokens with
  | nil => exact Lexes.nil.opened
  | cons t tokens ih =>
    obtain ⟨ht, htokens⟩ := List.forall_mem_cons.mp h
    cases tokens with
    | nil => simpa [Token.Rereads] using ht
    | cons t' tokens =>
      have hspaced : Lexes (t.spelling.toList ++ [' ']) [t.unplaced] :=
        ht.space (by simp [IsSpace]) (List.cons_ne_nil _ _)
      have hjoined : (" ".intercalate ((t :: t' :: tokens).map Token.spelling)).toList =
          t.spelling.toList ++ [' '] ++
            (" ".intercalate ((t' :: tokens).map Token.spelling)).toList := by
        simp
      rw [hjoined]
      exact hspaced.appendOpen (ih htokens)

/-- The tokens of a source without illegal ones, written down with spaces
between them, are read as the same tokens: they agree in everything but their
places. -/
theorem tokenize_respell {source : String} (h : ∀ t ∈ tokenize source, t.kind ≠ .illegal) :
    (tokenize (respell (tokenize source))).map Token.unplaced =
      (tokenize source).map Token.unplaced := by
  obtain ⟨tokens, hsource, htokens⟩ := tokenize_rereads source
  have hwritten : (tokenize source).filter (·.kind ≠ .eof) = tokens := by
    have hkept : tokens.filter (·.kind ≠ .eof) = tokens :=
      List.filter_eq_self.mpr fun t ht => decide_eq_true (htokens t ht).1
    rw [hsource, List.filter_append, hkept]
    exact List.append_nil tokens
  have hlexes : LexesOpen (respell (tokenize source)).toList (tokens.map Token.unplaced) := by
    rw [respell, hwritten]
    refine lexes_spellings fun t ht => (htokens t ht).2 (h t ?_)
    rw [hsource]
    exact List.mem_append_left _ ht
  have hscan := hlexes [] rfl
  rw [List.append_nil, scan_nil] at hscan
  rw [unplaced_tokenize, hscan, hsource, List.map_append]
  rfl

/-- Numbers in every form, a number that a name follows at once, a keyword in
mixed case and with a letter that is only a capital's counterpart, escapes that
are not needed, a comment, and no spaces where none are needed. -/
def mixedForms : String :=
  "start:.l MoVd A,$0fF;x\nſub(B),007x '\\'' '\"'db\"a\\n\\'\\\\é\""

/-- The same tokens, one behind the other. -/
def spacedForms : String :=
  "start : . l MOVD A , $0fF SUB ( B ) , 007 x '\\'' '\\\"' DB \"a\\n\\'\\\\é\""

theorem tokenize_respell_mixedForms :
    (∀ t ∈ tokenize mixedForms, t.kind ≠ .illegal) ∧
      respell (tokenize mixedForms) = spacedForms ∧
      (tokenize spacedForms).map Token.unplaced = (tokenize mixedForms).map Token.unplaced := by
  have hread : (∀ t ∈ tokenize mixedForms, t.kind ≠ .illegal) ∧
      respell (tokenize mixedForms) = spacedForms := by
    decide +kernel
  obtain ⟨hlegal, hspaced⟩ := hread
  have hagain := tokenize_respell hlegal
  rw [hspaced] at hagain
  exact ⟨hlegal, hspaced, hagain⟩

end RegAsm
