/-
RegAsm.Proofs.Printing — a program that was read is printed as a text that is
read as the same program.

A statement is shown close to how it was written, but not as it was written:
keywords come out in lower case, numbers in base ten, strings with their
escapes.  Each piece of such a text is read as the piece it shows (`ReadsAs`,
`Lexes`), so a printed program is read as the program, places aside
(`parse_printed`).  For this the registers of a program must have names, which
they have if they were read (`isAssigned_of_mem_scan`).

1. Registers that were read.
2. Operands.
3. Statements.
4. Programs.
-/
import RegAsm.Proofs.Spelling

namespace RegAsm

open Machine Grammar Recognizer
open Source (Position)

/-! ## 1. Registers that were read -/

theorem registers_assigned : ∀ e ∈ byLength Register.names,
    (Register.ofInt e.index).isAssigned = true := by
  intro e he
  obtain ⟨hlt, -⟩ := List.getElem?_eq_some_iff.mp (mem_byLength_iff.mp he)
  have hlength : Register.names.length = 78 := by decide
  have hnumber : ((e.index : Int) % 2 ^ 8).toNat = e.index := by omega
  rw [Register.isAssigned, Register.ofInt, UInt8.ofInt, hnumber, UInt8.toNat_ofNat',
    decide_eq_true_eq]
  omega

theorem isAssigned_of_accepted {text : List Char}
    (h : (registers Register.names text).accepted = true) :
    (Register.ofInt (registers Register.names text).token.id).isAssigned = true := by
  unfold registers at h ⊢
  obtain ⟨e, he, -, heq⟩ := ofEntries_spec h
  rw [heq]
  exact registers_assigned e he

/-- A register that was read has a name. -/
theorem isAssigned_of_mem_scan {text : List Char} {token : Token} (h : token ∈ scan assembly text)
    (hkind : token.kind = .register) : (Register.ofInt token.id).isAssigned = true := by
  rcases mem_scan h with rfl | hill | ⟨token', text', taken, rfl, hmatch⟩
  · cases hkind
  · rw [hkind] at hill
    cases hill
  · obtain ⟨r, hr, hr'⟩ := List.exists_of_findSome?_eq_some hmatch
    obtain ⟨haccepted, rfl⟩ := match?_eq_some hr'
    rcases accepted_cases hr haccepted with rfl | rfl | ⟨hne, -⟩
    · exact isAssigned_of_accepted haccepted
    · cases text' with
      | nil => cases haccepted
      | cons c rest =>
        rw [identifier] at hkind
        split at hkind <;> cases hkind
    · exact absurd hkind hne

namespace Grammar

/-- Tokens whose names and registers a text can hold. -/
structure Legible (ts : List Token) : Prop where
  names : NamesIn ts
  registers : ∀ t ∈ ts, t.kind = .register → (Register.ofInt t.id).isAssigned = true

theorem Legible.mono {ts ts' : List Token} (h : Legible ts) (hsub : ts' ⊆ ts) : Legible ts' :=
  ⟨h.names.mono hsub, fun t ht => h.registers t (hsub ht)⟩

end Grammar

theorem legible_tokenize (source : String) : Legible (tokenize source) := by
  refine ⟨fun t ht hkind => isName_of_mem_tokenize ht hkind, fun t ht hkind => ?_⟩
  have hmem : t.unplaced ∈ scan assembly source.toList := by
    rw [← unplaced_tokenize]
    exact List.mem_map_of_mem ht
  have hassigned := isAssigned_of_mem_scan hmem hkind
  exact hassigned

/-! ## 2. Operands -/

theorem readsAs_indirectDecimal (v : UInt32) :
    ReadsAs ('(' :: (Nat.toDigits 10 v.toNat ++ [')'])) (.indirectImmediate v) :=
  ⟨_, (lexes_parenthesized (lexesOpen_decimal v)).opened,
    .indirectImmediate (isSymbol_markToken '(') rfl (isSymbol_markToken ')')⟩

namespace Grammar

/-- An operand that was read is shown as a text that is read as the operand. -/
theorem Spells.readsAs {used : List Token} {o : Operand} (h : Spells used o)
    (hused : Legible used) : ReadsAs o.form.render.toList o.form := by
  cases h with
  | immediate ht => simpa [OperandForm.render] using readsAs_decimal _
  | register ht => exact readsAs_register (hused.registers _ (by simp) ht)
  | name hname => exact readsAs_name (hname.isName hused.names)
  | indirectName hl hname hr =>
    have hmention := hname.isName (hused.names.mono (by intro t ht; simp [ht]))
    simpa [OperandForm.render] using readsAs_indirectName hmention
  | @indirectRegister l t r hl ht hr =>
    have hassigned := hused.registers t (by simp) ht
    simpa [OperandForm.render] using readsAs_indirectRegister hassigned
  | indirectImmediate hl ht hr =>
    simpa [OperandForm.render, toString] using readsAs_indirectDecimal _

theorem lexes_item {t : Token} {o : Operand} (h : Production.itemOf? t = some o) :
    ∃ t', LexesOpen o.form.render.toList [t'] ∧ Production.itemOf? t' = some o.unplaced := by
  unfold Production.itemOf? at h
  split at h
  · cases h
    exact ⟨_, (lexes_quote t.text).opened, rfl⟩
  · cases h
    refine ⟨numberToken (Nat.toDigits 10 t.value.toNat) t.value, ?_, rfl⟩
    simpa [OperandForm.render] using lexesOpen_decimal t.value
  · cases h

theorem Items.ne_nil {used : List Token} {items : List Operand} (h : Items used items) :
    items ≠ [] := h.isDatum.1

/-- The items of a data directive are shown as a text that is read as them. -/
theorem Items.lexes_render {used : List Token} {items : List Operand} (h : Items used items) :
    ∃ tokens, LexesOpen (renderOperands items).toList tokens ∧
      Items tokens (items.map Operand.unplaced) := by
  induction h with
  | last ht =>
    obtain ⟨t', hlexes, hitem⟩ := lexes_item ht
    refine ⟨[t'], ?_, .last hitem⟩
    simpa [renderOperands] using hlexes
  | @more t c used o items ht hc hrest ih =>
    obtain ⟨t', hlexes, hitem⟩ := lexes_item ht
    obtain ⟨tokens, hlexes', hitems⟩ := ih
    refine ⟨t' :: markToken ',' :: tokens, ?_, .more hitem (isSymbol_markToken ',') hitems⟩
    have hjoined : (renderOperands (o :: items)).toList =
        o.form.render.toList ++ [',', ' '] ++ (renderOperands items).toList := by
      rw [renderOperands, renderOperands, List.map_cons, String.toList_intercalate,
        String.toList_intercalate, List.map_cons,
        List.intercalate_cons_of_ne_nil (by simpa using hrest.ne_nil)]
      rfl
    rw [hjoined]
    exact (hlexes.close lexes_comma (by decide)).appendOpen hlexes'

/-! ## 3. Statements -/

theorem lexes_keyword_gap {m : Mnemonic} (hm : ∀ n, m ≠ .other n) :
    Lexes ((Statement.spellMnemonic m).toList ++ [' ']) [keywordToken m] :=
  (lexes_keyword hm).1.space (by simp [IsSpace]) (by simp)

/-- A keyword has as many operands as the grammar says, so it is in the table. -/
theorem ne_other_of_mem_arities {m : Mnemonic} {n : Nat} (h : n ∈ arities m) :
    ∀ k, m ≠ .other k := by
  rintro k rfl
  cases h

/-- A statement that was read is shown as a text that is read as the
statement. -/
theorem Stmt.lexes_render {used : List Token} {s : Statement} (h : Stmt used s)
    (hused : Legible used) :
    ∃ tokens, LexesOpen s.render.toList tokens ∧ Stmt tokens s.unplaced := by
  induction h with
  | @label t c ht hc =>
    have hname := lexes_name (hused.names t (by simp) ht)
    have hcolon : Lexes [':'] [markToken ':'] := lexes_mark (by decide)
    have hstmt : Stmt _ (.label t.text .nowhere) :=
      .label (t := { kind := .identifier, text := t.text }) rfl (isSymbol_markToken ':')
    refine ⟨_, ?_, hstmt⟩
    simpa [Statement.render] using (hname.close hcolon (by decide)).opened
  | @localLabel d t c hd ht hc =>
    have hname := lexes_name (hused.names t (by simp) ht)
    have hdot : Lexes ['.'] [markToken '.'] := lexes_mark (by decide)
    have hcolon : Lexes [':'] [markToken ':'] := lexes_mark (by decide)
    have hstmt : Stmt _ (.localLabel ("." ++ t.text) .nowhere) :=
      .localLabel (t := { kind := .identifier, text := t.text }) (isSymbol_markToken '.') rfl
        (isSymbol_markToken ':')
    refine ⟨_, ?_, hstmt⟩
    simpa [Statement.render] using (hdot.append (hname.close hcolon (by decide))).opened
  | @nullary k m hk ha =>
    obtain ⟨hlexes, hkeyword⟩ := lexes_keyword (ne_other_of_mem_arities ha)
    have hstmt := Stmt.nullary hkeyword ha
    rw [keywordToken_pos] at hstmt
    exact ⟨_, hlexes, hstmt⟩
  | @unary k m ts a hk ha h =>
    have hm := ne_other_of_mem_arities ha
    obtain ⟨tokens, hlexes, hspells⟩ := h.readsAs (hused.mono (List.subset_cons_self _ _))
    have hstmt := Stmt.unary (lexes_keyword hm).2 ha hspells
    rw [keywordToken_pos] at hstmt
    refine ⟨_, ?_, hstmt⟩
    simpa [Statement.render, Statement.spellInstruction, renderOperands] using
      (lexes_keyword_gap hm).appendOpen hlexes
  | @binary k m ts a c ts' b hk ha h hc h' =>
    have hm := ne_other_of_mem_arities ha
    obtain ⟨tokens, hlexes, hspells⟩ := h.readsAs (hused.mono (by intro t ht; simp [ht]))
    obtain ⟨tokens', hlexes', hspells'⟩ := h'.readsAs (hused.mono (by intro t ht; simp [ht]))
    have hstmt := Stmt.binary (lexes_keyword hm).2 ha hspells (isSymbol_markToken ',') hspells'
    rw [keywordToken_pos] at hstmt
    refine ⟨_, ?_, hstmt⟩
    have hboth := (hlexes.close lexes_comma (by decide)).appendOpen hlexes'
    simpa [Statement.render, Statement.spellInstruction, renderOperands] using
      (lexes_keyword_gap hm).appendOpen hboth
  | data hk h =>
    obtain ⟨tokens, hlexes, hitems⟩ := h.lexes_render
    have hdb : ∀ n, Mnemonic.db ≠ .other n := nofun
    have hstmt := Stmt.data (lexes_keyword hdb).2 hitems
    rw [keywordToken_pos] at hstmt
    refine ⟨_, ?_, hstmt⟩
    have hall := (lexes_keyword_gap hdb).appendOpen hlexes
    rw [Statement.render, String.toList_append]
    exact hall
  | @times k n ts s hk hn h ih =>
    obtain ⟨tokens, hlexes, hbody⟩ := ih (hused.mono (by intro t ht; simp [ht]))
    have htimes : ∀ n, Mnemonic.times ≠ .other n := nofun
    have hcount : Lexes (Nat.toDigits 10 n.value.toNat ++ [' ']) _ :=
      (lexesOpen_decimal n.value).space (by simp [IsSpace]) (by simp)
    have hkind : (numberToken (Nat.toDigits 10 n.value.toNat) n.value).kind = .number := rfl
    have hstmt := Stmt.times (lexes_keyword htimes).2 hkind hbody
    rw [keywordToken_pos] at hstmt
    refine ⟨_, ?_, hstmt⟩
    have htext : (Statement.times n.value s k.pos).render.toList =
        (Statement.spellMnemonic .times).toList ++ [' '] ++
          (Nat.toDigits 10 n.value.toNat ++ [' '] ++ s.render.toList) := by
      have hword : (Statement.spellMnemonic .times).toList = ['t', 'i', 'm', 'e', 's'] := by decide
      simp [Statement.render, hword, toString]
    rw [htext]
    exact (lexes_keyword_gap htimes).appendOpen (hcount.appendOpen hlexes)

end Grammar

/-! ## 4. Programs -/

/-- The statements of a program as they are shown, one on a line. -/
def renderProgram (program : List Statement) : String :=
  String.intercalate "\n" (program.map Statement.render)

namespace Grammar

theorem Program.lexes_render {used : List Token} {ss : List Statement} (h : Program used ss)
    (hused : Legible used) :
    ∃ tokens, LexesOpen (renderProgram ss).toList tokens ∧
      Program tokens (ss.map Statement.unplaced) := by
  induction h with
  | nil => exact ⟨[], Lexes.nil.opened, .nil⟩
  | @cons ts ts' s ss hs hrest ih =>
    obtain ⟨tokens, hlexes, hstmt⟩ := hs.lexes_render (hused.mono (List.subset_append_left _ _))
    cases ss with
    | nil =>
      refine ⟨tokens ++ [], ?_, .cons hstmt .nil⟩
      simpa [renderProgram] using hlexes
    | cons s' ss =>
      obtain ⟨tokens', hlexes', hprogram⟩ := ih (hused.mono (List.subset_append_right _ _))
      have hline : Lexes (s.render.toList ++ ['\n']) tokens :=
        hlexes.space (by simp [IsSpace]) (by simp)
      have hjoined : (renderProgram (s :: s' :: ss)).toList =
          s.render.toList ++ ['\n'] ++ (renderProgram (s' :: ss)).toList := by
        simp [renderProgram]
      refine ⟨tokens ++ tokens', ?_, .cons hstmt hprogram⟩
      rw [hjoined]
      exact hline.appendOpen hlexes'

end Grammar

/-- A program that was read, once printed, is read as the same program: the
statements agree in everything but their places. -/
theorem parse_printed {source : String} {program : List Statement}
    (h : parse source = .ok program) :
    ∃ again, parse (renderProgram program) = .ok again ∧
      again.map Statement.unplaced = program.map Statement.unplaced := by
  obtain ⟨used, rest, htokens, hprogram, -⟩ := parse_iff.mp h
  have hused : Legible used := by
    refine (legible_tokenize source).mono ?_
    rw [htokens]
    exact List.subset_append_left used rest
  obtain ⟨tokens, hlexes, hagain⟩ := hprogram.lexes_render hused
  have hscan := hlexes [] rfl
  rw [List.append_nil, scan_nil] at hscan
  exact parse_of_scan hscan hagain

/-- Labels of both kinds, a number in base sixteen, a character, escapes, a
repetition of a repetition, and keywords in either case. -/
def mixedSpelling : String :=
  "start: .loop: MovD A, $ff ; comment\n" ++
  "times 2 TIMES 'a' db \"a\\n\\\"\", 'z', $10 xor B jmp (.loop)"

/-- The same program as it is shown. -/
def plainSpelling : String :=
  "start:\n.loop:\nmovd A, 255\ntimes 2 times 97 db \"a\\n\\\"\", 122, 16\nxor B\njmp (.loop)"

theorem parse_printed_mixedSpelling :
    ∃ program, parse mixedSpelling = .ok program ∧ renderProgram program = plainSpelling ∧
      ∃ again, parse plainSpelling = .ok again ∧
        again.map Statement.unplaced = program.map Statement.unplaced := by
  have hread : ∃ program ∈ (Parser.ofTokens (tokenize mixedSpelling) false).parse.1.toOption,
      renderProgram program = plainSpelling := by
    decide +kernel
  obtain ⟨program, hparse, htext⟩ := exists_parse_of_forgetful hread
  have hagain := parse_printed hparse
  rw [htext] at hagain
  exact ⟨program, hparse, htext, hagain⟩

end RegAsm
