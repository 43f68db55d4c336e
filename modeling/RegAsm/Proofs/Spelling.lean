/-
RegAsm.Proofs.Spelling — texts that are read as keywords, registers, labels and
operands.

Each keyword in lower case and each register name is a word that is read as
what it names, a label is read as a label, and so an operand can be written
down in a form that is read back (`ReadsAs`).

1. Keywords and registers.
2. Labels.
3. Operands.
4. Statements.
-/
import RegAsm.Proofs.Literals
import RegAsm.Proofs.Reading
import RegAsm.Proofs.Vocabulary

namespace RegAsm

open Machine Grammar Recognizer
open Source (Position)

/-! ## 1. Keywords and registers -/

/-- The token of a keyword in lower case. -/
def keywordToken (m : Mnemonic) : Token := wordToken (Statement.spellMnemonic m).toList

/-- Every keyword is in the table. -/
theorem Mnemonic.exists_index {m : Mnemonic} (h : ∀ n, m ≠ .other n) :
    ∃ i : Nat, m.index = i ∧ Mnemonic.names[i]? = some m.name := by
  have hname : ∀ i < 66, Mnemonic.names[i]? = some ((Mnemonic.names[i]?).getD "") := by
    intro i hi
    have hlength : Mnemonic.names.length = 66 := by decide
    rw [List.getElem?_eq_getElem (hlength ▸ hi), Option.getD_some]
  cases m with
  | op opcode => exact ⟨opcode.number, rfl, hname _ (by cases opcode <;> decide)⟩
  | sizedMove size =>
    cases size with
    | word => exact ⟨61, rfl, hname 61 (by decide)⟩
    | dword => exact ⟨62, rfl, hname 62 (by decide)⟩
    | qword => exact ⟨63, rfl, hname 63 (by decide)⟩
  | db => exact ⟨64, rfl, hname 64 (by decide)⟩
  | times => exact ⟨65, rfl, hname 65 (by decide)⟩
  | other n => exact absurd rfl (h n)

/-- A keyword in lower case is read as the keyword. -/
theorem lexes_keyword {m : Mnemonic} (h : ∀ n, m ≠ .other n) :
    LexesOpen (Statement.spellMnemonic m).toList [keywordToken m] ∧
      IsKeyword m (keywordToken m) := by
  obtain ⟨i, hindex, hname⟩ := Mnemonic.exists_index h
  obtain ⟨hword, htoken⟩ := wordToken_lowerCase hname
  rw [keywordToken, Statement.spellMnemonic, String.toList_ofList]
  refine ⟨lexesOpen_word hword, ?_⟩
  rw [htoken]
  exact ⟨rfl, hindex.symm⟩

theorem keywordToken_pos (m : Mnemonic) : (keywordToken m).pos = .nowhere :=
  congrArg Token.pos (unplaced_wordToken _).symm

theorem Register.ofInt_number (r : Register) : Register.ofInt r.number.toNat = r := by
  have hnumber : ((r.number.toNat : Int) % 2 ^ 8).toNat = r.number.toNat := by
    have hlt := r.number.toNat_lt
    omega
  rw [Register.ofInt, UInt8.ofInt, hnumber, UInt8.ofNat_toNat]

/-- The name of a register is read as the register. -/
theorem lexes_register {r : Register} (h : r.isAssigned = true) :
    LexesOpen r.name.toList [wordToken r.name.toList] ∧
      (wordToken r.name.toList).kind = .register ∧
      Register.ofInt (wordToken r.name.toList).id = r := by
  have hname : Register.names[r.number.toNat]? = some r.name := by
    rw [Register.name, List.getElem?_eq_getElem (of_decide_eq_true h), Option.getD_some]
  obtain ⟨hne, hcapitals⟩ := register_capitals (List.mem_of_getElem? hname)
  have htoken : wordToken r.name.toList = entryToken .register ⟨r.name.toList, r.number.toNat⟩ :=
    wordToken_of_register (registerEntry_eq_some (by rwa [String.ofList_toList]))
  refine ⟨lexesOpen_word (isWord_capitals hne hcapitals), ?_⟩
  rw [htoken]
  exact ⟨rfl, Register.ofInt_number r⟩

theorem wordToken_pos (w : List Char) : (wordToken w).pos = .nowhere :=
  congrArg Token.pos (unplaced_wordToken w).symm

/-! ## 2. Labels -/

theorem isSymbol_markToken (c : Char) : IsSymbol (String.singleton c) (markToken c) :=
  ⟨rfl, rfl⟩

theorem lexes_name {name : String} (h : IsName name) :
    LexesOpen name.toList [{ kind := .identifier, text := name }] := by
  rw [← h.wordToken_eq]
  exact lexesOpen_word h.word

/-- A label that is mentioned is read as the label. -/
theorem lexes_mention {label : String} (h : IsName label ∨ IsLocal label) :
    ∃ t ts, LexesOpen label.toList (t :: ts) ∧ Name (t :: ts) label ∧ t.pos = .nowhere := by
  rcases h with h | ⟨base, h, rfl⟩
  · exact ⟨_, [], lexes_name h, .plain rfl, rfl⟩
  · have hdot : Lexes ['.'] [markToken '.'] := lexes_mark (by decide)
    have hname : Name [markToken '.', { kind := .identifier, text := base }] ("." ++ base) :=
      .dotted (isSymbol_markToken '.') rfl
    refine ⟨_, _, ?_, hname, rfl⟩
    rw [String.toList_append]
    exact hdot.appendOpen (lexes_name h)

/-! ## 3. Operands -/

/-- A text that is read as an operand. -/
def ReadsAs (text : List Char) (form : OperandForm) : Prop :=
  ∃ tokens, LexesOpen text tokens ∧ Spells tokens ⟨form, .nowhere⟩

theorem readsAs_register {r : Register} (h : r.isAssigned = true) :
    ReadsAs r.name.toList (.register r) := by
  obtain ⟨hlexes, hkind, hr⟩ := lexes_register h
  have hspells := Spells.register hkind
  rw [hr, wordToken_pos] at hspells
  exact ⟨_, hlexes, hspells⟩

theorem readsAs_name {label : String} (h : IsName label ∨ IsLocal label) :
    ReadsAs label.toList (.name label) := by
  obtain ⟨t, ts, hlexes, hname, hpos⟩ := lexes_mention h
  have hspells := Spells.name hname
  rw [hpos] at hspells
  exact ⟨_, hlexes, hspells⟩

theorem readsAs_hex (width : Nat) (v : UInt32) :
    ReadsAs ('$' :: Text.hexUpper width v.toNat) (.immediate v) :=
  ⟨_, lexesOpen_hex width v, .immediate rfl⟩

theorem readsAs_decimal (v : UInt32) : ReadsAs (Nat.toDigits 10 v.toNat) (.immediate v) :=
  ⟨_, lexesOpen_decimal v, .immediate rfl⟩

/-- What stands in parentheses is read on its own. -/
theorem lexes_parenthesized {text : List Char} {tokens : List Token} (h : LexesOpen text tokens) :
    Lexes ('(' :: (text ++ [')'])) (markToken '(' :: (tokens ++ [markToken ')'])) := by
  have hleft : Lexes ['('] [markToken '('] := lexes_mark (by decide)
  have hright : Lexes [')'] [markToken ')'] := lexes_mark (by decide)
  exact hleft.append (h.close hright (by decide))

theorem readsAs_indirectRegister {r : Register} (h : r.isAssigned = true) :
    ReadsAs ('(' :: (r.name.toList ++ [')'])) (.indirectRegister r) := by
  obtain ⟨hlexes, hkind, hr⟩ := lexes_register h
  have hspells := Spells.indirectRegister (isSymbol_markToken '(') hkind (isSymbol_markToken ')')
  rw [hr] at hspells
  exact ⟨_, (lexes_parenthesized hlexes).opened, hspells⟩

theorem readsAs_indirectName {label : String} (h : IsName label ∨ IsLocal label) :
    ReadsAs ('(' :: (label.toList ++ [')'])) (.indirectName label) := by
  obtain ⟨t, ts, hlexes, hname, -⟩ := lexes_mention h
  exact ⟨_, (lexes_parenthesized hlexes).opened,
    .indirectName (isSymbol_markToken '(') hname (isSymbol_markToken ')')⟩

theorem readsAs_indirectHex (width : Nat) (v : UInt32) :
    ReadsAs ('(' :: ('$' :: Text.hexUpper width v.toNat ++ [')'])) (.indirectImmediate v) :=
  ⟨_, (lexes_parenthesized (lexesOpen_hex width v)).opened,
    .indirectImmediate (isSymbol_markToken '(') rfl (isSymbol_markToken ')')⟩

/-! ## 4. Statements -/

/-- Blanks of a line. -/
def IsSpace (text : List Char) : Prop := ∀ c ∈ text, c = ' ' ∨ c = '\n'

theorem IsSpace.lexes {text : List Char} (h : IsSpace text) : Lexes text [] := by
  refine lexes_blanks fun c hc => ?_
  rcases h c hc with rfl | rfl <;> decide

/-- Blanks behind a word end it. -/
theorem LexesOpen.space {text space : List Char} {tokens : List Token} (h : LexesOpen text tokens)
    (hspace : IsSpace space) (hne : space ≠ []) : Lexes (text ++ space) tokens := by
  obtain ⟨c, tail, rfl⟩ := List.exists_cons_of_ne_nil hne
  have hc : isNameChar c = false := by
    rcases hspace c List.mem_cons_self with rfl | rfl <;> decide
  have hclosed := h.close hspace.lexes hc
  rwa [List.append_nil] at hclosed

theorem lexes_comma : Lexes [',', ' '] [markToken ','] := by
  have hmark : Lexes [','] [markToken ','] := lexes_mark (by decide)
  have hspace : IsSpace [' '] := by simp [IsSpace]
  exact hmark.append hspace.lexes

section Statements

variable {m : Mnemonic} {indent gap stop : List Char} (hm : ∀ n, m ≠ .other n)
  (hindent : IsSpace indent) (hstop : IsSpace stop) (hstop' : stop ≠ [])

include hm hindent hstop hstop'

/-- A keyword without operands on a line of its own. -/
theorem lexes_nullary (harity : 0 ∈ arities m) :
    ∃ tokens, Lexes (indent ++ ((Statement.spellMnemonic m).toList ++ stop)) tokens ∧
      Stmt tokens (.instruction m [] .nowhere) := by
  obtain ⟨hlexes, hkeyword⟩ := lexes_keyword hm
  have hstmt := Stmt.nullary hkeyword harity
  rw [keywordToken_pos] at hstmt
  exact ⟨_, hindent.lexes.append (hlexes.space hstop hstop'), hstmt⟩

variable (hgap : IsSpace gap) (hgap' : gap ≠ [])

include hgap hgap'

/-- A keyword and what follows it on a line. -/
theorem lexes_line {text : List Char} {tokens : List Token} (h : LexesOpen text tokens) :
    Lexes (indent ++ ((Statement.spellMnemonic m).toList ++ gap ++ (text ++ stop)))
      (keywordToken m :: tokens) :=
  hindent.lexes.append
    (((lexes_keyword hm).1.space hgap hgap').append (h.space hstop hstop'))

theorem lexes_unary (harity : 1 ∈ arities m) {a : List Char} {x : OperandForm}
    (ha : ReadsAs a x) :
    ∃ tokens, Lexes (indent ++ ((Statement.spellMnemonic m).toList ++ gap ++ (a ++ stop))) tokens ∧
      Stmt tokens (.instruction m [⟨x, .nowhere⟩] .nowhere) := by
  obtain ⟨ts, hlexes, hspells⟩ := ha
  have hstmt := Stmt.unary (lexes_keyword hm).2 harity hspells
  rw [keywordToken_pos] at hstmt
  exact ⟨_, lexes_line hm hindent hstop hstop' hgap hgap' hlexes, hstmt⟩

theorem lexes_binary (harity : 2 ∈ arities m) {a b : List Char} {x y : OperandForm}
    (ha : ReadsAs a x) (hb : ReadsAs b y) :
    ∃ tokens, Lexes (indent ++ ((Statement.spellMnemonic m).toList ++ gap ++
        (a ++ ([',', ' '] ++ b) ++ stop))) tokens ∧
      Stmt tokens (.instruction m [⟨x, .nowhere⟩, ⟨y, .nowhere⟩] .nowhere) := by
  obtain ⟨ts, hlexes, hspells⟩ := ha
  obtain ⟨ts', hlexes', hspells'⟩ := hb
  have hboth : LexesOpen (a ++ ([',', ' '] ++ b)) (ts ++ ([markToken ','] ++ ts')) := by
    rw [← List.append_assoc, ← List.append_assoc]
    exact (hlexes.close lexes_comma (by decide)).appendOpen hlexes'
  have hstmt := Stmt.binary (lexes_keyword hm).2 harity hspells (isSymbol_markToken ',') hspells'
  rw [keywordToken_pos] at hstmt
  exact ⟨_, lexes_line hm hindent hstop hstop' hgap hgap' hboth, hstmt⟩

end Statements

end RegAsm
