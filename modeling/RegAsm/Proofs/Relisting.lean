/-
RegAsm.Proofs.Relisting — reading a listing.

A line of a listing is read as a statement: a label line as the label, an
instruction line as the instruction with some operands shown by a label's name
(`Instruction.statement`), and data lines as directives for the same bytes.  So
a listing is read as statements that stand for its rows one by one
(`Relists`, `linesOf_spell`).

1. Lines.
2. Instructions.
3. Data.
4. Rows.
-/
import RegAsm.Proofs.Listing
import RegAsm.Proofs.Spelling

namespace RegAsm

open Machine Grammar
open Source (Position)

/-! ## 1. Lines -/

/-- Lines that are read as some statements. -/
def LinesSpell (lines : List String) (ss : List Statement) : Prop :=
  ∃ tokens, Lexes (lines.flatMap String.toList) tokens ∧ Program tokens ss

theorem Grammar.Program.append {ts ts' : List Token} {ss ss' : List Statement}
    (h : Program ts ss) (h' : Program ts' ss') : Program (ts ++ ts') (ss ++ ss') := by
  induction h with
  | nil => exact h'
  | cons hs hrest ih =>
    rw [List.append_assoc]
    exact .cons hs ih

theorem LinesSpell.nil : LinesSpell [] [] := ⟨[], .nil, .nil⟩

theorem LinesSpell.append {xs ys : List String} {ss ss' : List Statement} (h : LinesSpell xs ss)
    (h' : LinesSpell ys ss') : LinesSpell (xs ++ ys) (ss ++ ss') := by
  obtain ⟨ts, hlexes, hprogram⟩ := h
  obtain ⟨ts', hlexes', hprogram'⟩ := h'
  refine ⟨ts ++ ts', ?_, hprogram.append hprogram'⟩
  rw [List.flatMap_append]
  exact hlexes.append hlexes'

theorem LinesSpell.line {line : String} {tokens : List Token} {s : Statement}
    (hlexes : Lexes line.toList tokens) (hstmt : Stmt tokens s) : LinesSpell [line] [s] := by
  refine ⟨tokens ++ [], ?_, .cons hstmt .nil⟩
  rw [List.flatMap_singleton, List.append_nil]
  exact hlexes

theorem LinesSpell.cons {line : String} {lines : List String} {s : Statement} {ss : List Statement}
    (h : LinesSpell [line] [s]) (h' : LinesSpell lines ss) : LinesSpell (line :: lines) (s :: ss) :=
  h.append h'

/-- A text of such lines is read as the statements, places aside. -/
theorem LinesSpell.parse {lines : List String} {ss : List Statement} (h : LinesSpell lines ss) :
    ∃ program, parse (String.join lines) = .ok program ∧ program.map Statement.unplaced = ss := by
  obtain ⟨tokens, hlexes, hprogram⟩ := h
  refine parse_of_scan ?_ hprogram
  rw [String.toList_join, hlexes.scan_eq]

/-! ## 2. Instructions -/

/-- Every name that the labels give to an address can be read. -/
def Labels.Readable (labels : Labels) : Prop :=
  ∀ v name, labels.best? v = some name → IsName name ∨ IsLocal name

namespace Instruction

/-- The label by which a listing shows an operand, if it does. -/
def shownName? (labels : Labels) (o : DecodedOperand) : Option String :=
  match o.operandClass with
  | .indirect => labels.best? o.value
  | .immediate => if o.width = 4 then labels.best? o.value else none
  | .register | .registerIndirect => none

theorem best?_of_shownName? {labels : Labels} {o : DecodedOperand} {name : String}
    (h : shownName? labels o = some name) : labels.best? o.value = some name := by
  unfold shownName? at h
  split at h
  · exact h
  · split at h
    · exact h
    · cases h
  · cases h
  · cases h

/-- The operand that a listing shows. -/
def shownForm (labels : Labels) (o : DecodedOperand) : OperandForm :=
  match o.operandClass with
  | .register => .register o.register
  | .registerIndirect => .indirectRegister o.register
  | .indirect =>
    match shownName? labels o with
    | some name => .indirectName name
    | none => .indirectImmediate o.value
  | .immediate =>
    match shownName? labels o with
    | some name => .name name
    | none => .immediate o.value

/-- The keyword that a listing shows. -/
def shownKeyword (i : Instruction) : Mnemonic :=
  match i.opcode, i.size, i.operands with
  | .mov, some size, [_, src] =>
    if src.operandClass = .immediate ∧ Size.least src.value ≠ size then .sizedMove size
    else .op .mov
  | op, _, _ => .op op

/-- The operands that a listing shows. -/
def shownOperands (labels : Labels) (i : Instruction) : List Operand :=
  i.operands.map fun o => ⟨shownForm labels o, .nowhere⟩

/-- The instruction that a listing shows. -/
def statement (labels : Labels) (i : Instruction) : Statement :=
  .instruction i.shownKeyword (i.shownOperands labels) .nowhere

theorem shownKeyword_ne_other (i : Instruction) (n : Int) : i.shownKeyword ≠ .other n := by
  unfold shownKeyword
  split
  · split <;> simp
  · simp

theorem name_eq_spellMnemonic (op : Opcode) : op.name = Statement.spellMnemonic (.op op) := by
  have hall : ∀ k : Nat, k < 61 → ∀ op ∈ (Opcode.table[k]?).map Prod.fst,
      op.name = Statement.spellMnemonic (.op op) := by
    decide +kernel
  have hmem : op ∈ (Opcode.table[op.number]?).map Prod.fst := by
    cases op <;> rfl
  have hlt : op.number < 61 := by
    cases op <;> decide
  exact hall op.number hlt op hmem

/-- The name of an instruction spells its keyword. -/
theorem mnemonic_eq (i : Instruction) : i.mnemonic = Statement.spellMnemonic i.shownKeyword := by
  have hsized : ∀ size : Size,
      Opcode.mov.name ++ size.suffix = Statement.spellMnemonic (.sizedMove size) := by
    intro size
    cases size <;> decide +kernel
  unfold mnemonic
  split
  · rename_i size _ src hop hsize hops
    simp only [shownKeyword, hop, hsize, hops]
    split
    · exact hsized size
    · exact name_eq_spellMnemonic .mov
  · rename_i hother
    unfold shownKeyword
    split
    · rename_i size _ src hop hsize hops
      exact absurd hops (hother size _ src hop hsize)
    · exact name_eq_spellMnemonic i.opcode

/-- An instruction whose line can be read. -/
structure Listable (i : Instruction) : Prop where
  registers : ∀ o ∈ i.operands, o.operandClass.usesRegister = true → o.register.isAssigned = true
  arity : i.operands.length ∈ arities i.shownKeyword

theorem toList_hexNumber (v : UInt32) :
    (hexNumber v).toList = '$' :: Text.hexUpper 1 v.toNat := by
  simp [hexNumber]

/-- An operand's text is read as the operand that is shown. -/
theorem readsAs_operandText {labels : Labels} (hlabels : labels.Readable) {o : DecodedOperand}
    (hreg : o.operandClass.usesRegister = true → o.register.isAssigned = true) :
    ReadsAs (operandText labels o).toList (shownForm labels o) := by
  have hparens : ∀ text : String, ("(" ++ text ++ ")").toList = '(' :: (text.toList ++ [')']) := by
    intro text
    simp
  cases hc : o.operandClass with
  | register =>
    simp only [operandText, shownForm, hc]
    exact readsAs_register (hreg (by rw [hc]; rfl))
  | registerIndirect =>
    simp only [operandText, shownForm, hc, hparens]
    exact readsAs_indirectRegister (hreg (by rw [hc]; rfl))
  | indirect =>
    simp only [operandText, shownForm, shownName?, hc, hparens, addressText]
    cases hbest : labels.best? o.value with
    | some name => exact readsAs_indirectName (hlabels _ _ hbest)
    | none =>
      simp only [toList_hexNumber]
      exact readsAs_indirectHex 1 o.value
  | immediate =>
    simp only [operandText, shownForm, shownName?, hc, addressText]
    by_cases hwidth : o.width = 4
    · simp only [hwidth, if_true]
      cases hbest : labels.best? o.value with
      | some name => exact readsAs_name (hlabels _ _ hbest)
      | none =>
        simp only [toList_hexNumber]
        exact readsAs_hex 1 o.value
    · simp only [hwidth, if_false]
      simpa using readsAs_decimal o.value

theorem arities_le_two {m : Mnemonic} {n : Nat} (h : n ∈ arities m) : n ≤ 2 := by
  unfold arities at h
  split at h <;> simp at h <;> omega

theorem isSpace_replicate (n : Nat) : IsSpace (List.replicate n ' ') :=
  fun _ hc => .inl (List.eq_of_mem_replicate hc)

/-- An instruction's line is read as the instruction that is shown. -/
theorem codeLine_spells {labels : Labels} (hlabels : labels.Readable) {i : Instruction}
    (hi : i.Listable) : LinesSpell [Listing.codeLine labels i] [i.statement labels] := by
  have hindent : IsSpace "    ".toList := by simp [IsSpace]
  have hstop : IsSpace "\n".toList := by simp [IsSpace]
  have hgap : IsSpace (List.replicate (8 - i.mnemonic.length) ' ' ++ [' ']) := by
    intro c hc
    rcases List.mem_append.mp hc with hc | hc
    · exact isSpace_replicate _ c hc
    · exact .inl (List.mem_singleton.mp hc)
  have harity := hi.arity
  obtain ⟨tokens, hlexes, hstmt⟩ : ∃ tokens, Lexes (Listing.codeLine labels i).toList tokens ∧
      Stmt tokens (i.statement labels) := by
    cases hops : i.operands with
    | nil =>
      rw [hops] at harity
      obtain ⟨tokens, hlexes, hstmt⟩ := lexes_nullary i.shownKeyword_ne_other hindent hstop
        (by simp) harity
      refine ⟨tokens, ?_, by rwa [statement, shownOperands, hops]⟩
      simpa [Listing.codeLine, format, hops, mnemonic_eq] using hlexes
    | cons a rest =>
      have ha := readsAs_operandText hlabels (hi.registers a (by simp [hops]))
      cases rest with
      | nil =>
        rw [hops] at harity
        obtain ⟨tokens, hlexes, hstmt⟩ := lexes_unary i.shownKeyword_ne_other hindent hstop
          (by simp) hgap (by simp) harity ha
        refine ⟨tokens, ?_, by rwa [statement, shownOperands, hops]⟩
        simpa [Listing.codeLine, format, padName, hops, mnemonic_eq] using hlexes
      | cons b rest =>
        have hb := readsAs_operandText hlabels (hi.registers b (by simp [hops]))
        cases rest with
        | nil =>
          rw [hops] at harity
          obtain ⟨tokens, hlexes, hstmt⟩ := lexes_binary i.shownKeyword_ne_other hindent hstop
            (by simp) hgap (by simp) harity ha hb
          refine ⟨tokens, ?_, by rwa [statement, shownOperands, hops]⟩
          simpa [Listing.codeLine, format, padName, hops, mnemonic_eq] using hlexes
        | cons c rest =>
          have hle := arities_le_two harity
          simp only [hops, List.length_cons] at hle
          omega
  exact LinesSpell.line hlexes hstmt

end Instruction

/-! ## 3. Data -/

namespace Listing

/-- Rows and statements that stand for them: labels and instructions as they
are shown, and directives for the bytes. -/
inductive Relists (labels : Labels) : List Row → List Statement → Prop
  | nil : Relists labels [] []
  | label {name : String} {rows : List Row} {ss : List Statement} : IsName name →
    Relists labels rows ss → Relists labels (.label name :: rows) (.label name .nowhere :: ss)
  | localLabel {name : String} {rows : List Row} {ss : List Statement} : IsLocal name →
    Relists labels rows ss → Relists labels (.label name :: rows) (.localLabel name .nowhere :: ss)
  | data {items : List Operand} {bytes : List UInt8} {rows : List Row} {ss : List Statement} :
    dataBytes items = .ok bytes → Relists labels rows ss →
    Relists labels (bytes.map .byte ++ rows) (.data items .nowhere :: ss)
  | code {l : Layout} {i : Instruction} {rows : List Row} {ss : List Statement} :
    Relists labels rows ss → Relists labels (.code l i :: rows) (i.statement labels :: ss)

variable {labels : Labels}

theorem Relists.append {rows rows' : List Row} {ss ss' : List Statement}
    (h : Relists labels rows ss) (h' : Relists labels rows' ss') :
    Relists labels (rows ++ rows') (ss ++ ss') := by
  induction h with
  | nil => exact h'
  | label hname _ ih => exact .label hname ih
  | localLabel hname _ ih => exact .localLabel hname ih
  | data hbytes _ ih =>
    rw [List.append_assoc]
    exact .data hbytes ih
  | code _ ih => exact .code ih

/-- Bytes that some lines list. -/
def ListsBytes (lines : List String) (bytes : List UInt8) : Prop :=
  ∃ ss, LinesSpell lines ss ∧ ∀ labels, Relists labels (bytes.map .byte) ss

theorem ListsBytes.nil : ListsBytes [] [] := ⟨[], .nil, fun _ => .nil⟩

theorem ListsBytes.append {xs ys : List String} {bytes bytes' : List UInt8}
    (h : ListsBytes xs bytes) (h' : ListsBytes ys bytes') :
    ListsBytes (xs ++ ys) (bytes ++ bytes') := by
  obtain ⟨ss, hspell, hrelists⟩ := h
  obtain ⟨ss', hspell', hrelists'⟩ := h'
  refine ⟨ss ++ ss', hspell.append hspell', fun labels => ?_⟩
  rw [List.map_append]
  exact (hrelists labels).append (hrelists' labels)

/-- A directive whose items stand for some bytes lists them. -/
theorem listsBytes_dataLine {text : String} {tokens : List Token} {items : List Operand}
    {bytes : List UInt8} (hlexes : LexesOpen text.toList tokens) (hitems : Items tokens items)
    (hbytes : dataBytes items = .ok bytes) : ListsBytes [dataLine text] bytes := by
  have hdb : ∀ n, Mnemonic.db ≠ .other n := by simp
  have hindent : IsSpace "    ".toList := by simp [IsSpace]
  have hgap : IsSpace "       ".toList := by simp [IsSpace]
  have hstop : IsSpace "\n".toList := by simp [IsSpace]
  have hspelling : (Statement.spellMnemonic .db).toList = "db".toList := by decide +kernel
  have hline := lexes_line hdb hindent hstop (by simp) hgap (by simp) hlexes
  have hstmt := Stmt.data (lexes_keyword hdb).2 hitems
  rw [keywordToken_pos] at hstmt
  refine ⟨[.data items .nowhere], LinesSpell.line ?_ hstmt, fun labels => ?_⟩
  · rw [hspelling] at hline
    simpa [dataLine] using hline
  · rw [← List.append_nil (bytes.map Row.byte)]
    exact .data hbytes .nil

/-- The item for a byte. -/
def byteItem (b : UInt8) : Operand := ⟨.immediate b.toUInt32, .nowhere⟩

/-- The bytes of a directive are those of its items, one after the other. -/
theorem dataBytes_eq_ok {items : List Operand} {pieces : List (List UInt8)} (hne : items ≠ [])
    (h : List.Forall₂ (fun o bytes => datumBytes o = .ok bytes) items pieces) :
    dataBytes items = .ok pieces.flatten := by
  have hmap : items.mapM datumBytes = .ok pieces := by
    clear hne
    induction h with
    | nil => rfl
    | cons ho _ ih =>
      rw [List.mapM_cons, ho, ih]
      rfl
  have hempty : ¬ items.isEmpty = true := by simpa using hne
  rw [dataBytes, if_neg hempty, hmap]
  rfl

theorem datumBytes_byteItem (b : UInt8) : datumBytes (byteItem b) = .ok [b] := by
  have hbyte : b.toUInt32.toUInt8 = b := by simp
  simp only [datumBytes, byteItem, hbyte]

theorem forall₂_byteItems (bytes : List UInt8) :
    List.Forall₂ (fun o bs => datumBytes o = .ok bs) (bytes.map byteItem) (bytes.map ([·])) := by
  induction bytes with
  | nil => exact .nil
  | cons b rest ih => exact .cons (datumBytes_byteItem b) ih

theorem dataBytes_byteItems {bytes : List UInt8} (h : bytes ≠ []) :
    dataBytes (bytes.map byteItem) = .ok bytes := by
  rw [dataBytes_eq_ok (by simpa using h) (forall₂_byteItems bytes), ← List.flatMap_def,
    List.flatMap_singleton']

theorem lexes_byteText (b : UInt8) :
    ∃ t, LexesOpen (byteText b).toList [t] ∧ Production.itemOf? t = some (byteItem b) := by
  have htext : (byteText b).toList = '$' :: Text.hexUpper 2 b.toUInt32.toNat := by
    simp [byteText]
  rw [htext]
  exact ⟨_, lexesOpen_hex 2 b.toUInt32, rfl⟩

theorem lexes_byteTexts {bytes : List UInt8} (h : bytes ≠ []) :
    ∃ tokens, LexesOpen (String.intercalate ", " (bytes.map byteText)).toList tokens ∧
      Items tokens (bytes.map byteItem) := by
  induction bytes with
  | nil => exact absurd rfl h
  | cons b rest ih =>
    obtain ⟨t, hlexes, hitem⟩ := lexes_byteText b
    cases rest with
    | nil => exact ⟨[t], by simpa using hlexes, .last hitem⟩
    | cons next rest =>
      obtain ⟨ts, hlexes', hitems⟩ := ih (by simp)
      refine ⟨t :: markToken ',' :: ts, ?_, .more hitem (isSymbol_markToken ',') hitems⟩
      have hboth := (hlexes.close lexes_comma (by decide)).appendOpen hlexes'
      simpa using hboth

/-- Bytes as numbers are read as the bytes. -/
theorem listsBytes_numberLine {bytes : List UInt8} (h : bytes ≠ []) :
    ListsBytes [dataLine (String.intercalate ", " (bytes.map byteText))] bytes := by
  obtain ⟨tokens, hlexes, hitems⟩ := lexes_byteTexts h
  exact listsBytes_dataLine hlexes hitems (dataBytes_byteItems h)

/-- The pieces of a list make up the list, and none is empty. -/
theorem piecesOf_spec {α : Type} {n : Nat} {room : Nat} {piece : List α}
    (hpiece : piece = [] → 0 < room) (xs : List α) :
    (piecesOf n room piece xs).flatten = piece.reverse ++ xs ∧
      ∀ p ∈ piecesOf n room piece xs, p ≠ [] := by
  induction xs generalizing room piece with
  | nil =>
    cases piece with
    | nil => simp [piecesOf]
    | cons x piece => simp [piecesOf]
  | cons x rest ih =>
    cases room with
    | zero =>
      have hne : piece ≠ [] := fun h => absurd (hpiece h) (Nat.lt_irrefl 0)
      obtain ⟨hflat, hall⟩ := @ih (n - 1) [x] (by simp)
      rw [piecesOf, List.flatten_cons, hflat]
      refine ⟨by simp, List.forall_mem_cons.mpr ⟨by simpa using hne, hall⟩⟩
    | succ room =>
      obtain ⟨hflat, hall⟩ := @ih room (x :: piece) (by simp)
      rw [piecesOf]
      exact ⟨by simp [hflat], hall⟩

/-! ### Directives -/

/-- A data directive of a listing, with the bytes that it is read as. -/
structure Directive where
  items : String
  bytes : List UInt8
  nonempty : bytes ≠ []
  reads : ListsBytes [dataLine items] bytes

/-- Lines that are directives for some bytes, one behind the other. -/
def Directs (lines : List String) (bytes : List UInt8) : Prop :=
  ∃ ds : List Directive, lines = ds.map (dataLine ·.items) ∧ ds.flatMap (·.bytes) = bytes

theorem Directs.nil : Directs [] [] := ⟨[], rfl, rfl⟩

theorem Directs.one (d : Directive) : Directs [dataLine d.items] d.bytes :=
  ⟨[d], rfl, List.flatMap_singleton ..⟩

theorem Directs.append {xs ys : List String} {bytes bytes' : List UInt8}
    (h : Directs xs bytes) (h' : Directs ys bytes') : Directs (xs ++ ys) (bytes ++ bytes') := by
  obtain ⟨ds, rfl, rfl⟩ := h
  obtain ⟨ds', rfl, rfl⟩ := h'
  exact ⟨ds ++ ds', by rw [List.map_append], List.flatMap_append⟩

theorem Directs.listsBytes {lines : List String} {bytes : List UInt8} (h : Directs lines bytes) :
    ListsBytes lines bytes := by
  obtain ⟨ds, rfl, rfl⟩ := h
  induction ds with
  | nil => exact .nil
  | cons d ds ih => exact d.reads.append ih

theorem directs_numberLines (bytes : List UInt8) : Directs (numberLines bytes) bytes := by
  obtain ⟨hflat, hall⟩ := @piecesOf_spec UInt8 16 16 [] (fun _ => by decide) bytes
  have hpieces : ∀ pieces : List (List UInt8), (∀ p ∈ pieces, p ≠ []) →
      Directs (pieces.map fun p => dataLine (String.intercalate ", " (p.map byteText)))
        pieces.flatten := by
    intro pieces hpieces
    induction pieces with
    | nil => exact .nil
    | cons p rest ih =>
      obtain ⟨hp, hrest⟩ := List.forall_mem_cons.mp hpieces
      exact (Directs.one ⟨_, p, hp, listsBytes_numberLine hp⟩).append (ih hrest)
  have hlines := hpieces _ hall
  rw [hflat] at hlines
  exact hlines

/-! ### Strings -/

theorem isPrintableByte_lt {b : UInt8} (h : isPrintableByte b = true) : b.toNat < 0x80 := by
  simp only [isPrintableByte, Bool.and_eq_true, decide_eq_true_eq] at h
  have hle : b.toNat ≤ 0x7E := UInt8.le_iff_toNat_le.mp h.2
  omega

/-- The characters of ASCII bytes are read as the bytes. -/
theorem asciiBytes_chars (whole : String) {bytes : List UInt8} (h : ∀ b ∈ bytes, b.toNat < 0x80)
    (index : Nat) :
    asciiBytes whole index (bytes.map fun b => Char.ofNat b.toNat) = .ok bytes := by
  induction bytes generalizing index with
  | nil => rfl
  | cons b rest ih =>
    obtain ⟨hb, hrest⟩ := List.forall_mem_cons.mp h
    have hchar : (Char.ofNat b.toNat).toNat = b.toNat := by
      have hvalid : b.toNat.isValidChar := .inl (by omega)
      rw [Char.ofNat, dif_pos hvalid]
      rfl
    rw [List.map_cons, asciiBytes, hchar, if_pos hb, ih hrest, UInt8.ofNat_toNat]
    rfl

/-- The text of printable bytes. -/
def textOf (bytes : List UInt8) : String := String.ofList (bytes.map fun b => Char.ofNat b.toNat)

theorem datumBytes_text {bytes : List UInt8} (h : ∀ b ∈ bytes, isPrintableByte b = true) :
    datumBytes ⟨.text (textOf bytes), .nowhere⟩ = .ok bytes := by
  have hascii := asciiBytes_chars (textOf bytes) (fun b hb => isPrintableByte_lt (h b hb)) 0
  simpa [datumBytes, textOf] using hascii

theorem listsBytes_string {bytes : List UInt8} (h : ∀ b ∈ bytes, isPrintableByte b = true) :
    ListsBytes [dataLine (Token.quote (textOf bytes))] bytes := by
  have hitems : Items [stringToken (textOf bytes)] [⟨.text (textOf bytes), .nowhere⟩] := .last rfl
  have hbytes := dataBytes_eq_ok (by simp) (List.Forall₂.cons (datumBytes_text h) .nil)
  rw [List.flatten_singleton] at hbytes
  exact listsBytes_dataLine (lexes_quote _).opened hitems hbytes

theorem listsBytes_stringZero {bytes : List UInt8} (h : ∀ b ∈ bytes, isPrintableByte b = true) :
    ListsBytes [dataLine (Token.quote (textOf bytes) ++ ", $00")] (bytes ++ [0]) := by
  obtain ⟨t, hzero, hitem⟩ := lexes_byteText 0
  have hitems : Items [stringToken (textOf bytes), markToken ',', t]
      [⟨.text (textOf bytes), .nowhere⟩, byteItem 0] :=
    .more rfl (isSymbol_markToken ',') (.last hitem)
  have hbytes := dataBytes_eq_ok (by simp)
    (List.Forall₂.cons (datumBytes_text h) (.cons (datumBytes_byteItem 0) .nil))
  have htext : (Token.quote (textOf bytes) ++ ", $00").toList =
      (Token.quote (textOf bytes)).toList ++ ([',', ' '] ++ (byteText 0).toList) := by
    have hzeroText : (byteText 0).toList = ['$', '0', '0'] := by decide +kernel
    rw [hzeroText]
    simp
  have hlexes := (lexes_quote (textOf bytes)).appendOpen (lexes_comma.appendOpen hzero)
  rw [← htext] at hlexes
  simpa using listsBytes_dataLine hlexes hitems hbytes

/-- A run that is not empty and is all printable or all not. -/
structure ByteRun.Proper (run : ByteRun) : Prop where
  nonempty : run.bytes ≠ []
  uniform : ∀ b ∈ run.bytes, isPrintableByte b = run.printable

theorem addByte_spec (b : UInt8) {runs : List ByteRun} (h : ∀ run ∈ runs, run.Proper) :
    (∀ run ∈ addByte b runs, run.Proper) ∧
      (addByte b runs).flatMap (·.bytes) = b :: runs.flatMap (·.bytes) := by
  have hsingle : ByteRun.Proper ⟨isPrintableByte b, [b]⟩ := ⟨by simp, by simp⟩
  cases runs with
  | nil => exact ⟨by simpa [addByte] using hsingle, rfl⟩
  | cons run rest =>
    obtain ⟨hrun, hrest⟩ := List.forall_mem_cons.mp h
    rw [addByte]
    split
    · rename_i hsame
      have hlonger : ByteRun.Proper ⟨run.printable, b :: run.bytes⟩ :=
        ⟨by simp, List.forall_mem_cons.mpr ⟨hsame.symm, hrun.uniform⟩⟩
      exact ⟨List.forall_mem_cons.mpr ⟨hlonger, hrest⟩, rfl⟩
    · exact ⟨List.forall_mem_cons.mpr ⟨hsingle, h⟩, rfl⟩

theorem byteRuns_spec (bytes : List UInt8) :
    (∀ run ∈ byteRuns bytes, run.Proper) ∧ (byteRuns bytes).flatMap (·.bytes) = bytes := by
  induction bytes with
  | nil => exact ⟨by simp [byteRuns], rfl⟩
  | cons b rest ih =>
    obtain ⟨hproper, hflat⟩ := addByte_spec b ih.1
    exact ⟨hproper, hflat.trans (congrArg _ ih.2)⟩

theorem startsWithZero_spec {runs : List ByteRun} (h : startsWithZero runs = true) :
    ∃ bytes, runs.flatMap (·.bytes) = 0 :: bytes := by
  unfold startsWithZero at h
  split at h
  · exact ⟨_, rfl⟩
  · cases h

/-- The lines of some runs are directives for their bytes; with `skip` a zero
byte in front is left out. -/
theorem directs_runLines {runs : List ByteRun} (h : ∀ run ∈ runs, run.Proper) {skip : Bool}
    (hskip : skip = true → startsWithZero runs = true) :
    Directs (runLines skip runs)
      (if skip then (runs.flatMap (·.bytes)).tail else runs.flatMap (·.bytes)) := by
  induction runs generalizing skip with
  | nil =>
    cases skip with
    | true => cases hskip rfl
    | false => exact .nil
  | cons run rest ih =>
    obtain ⟨hrun, hrest⟩ := List.forall_mem_cons.mp h
    -- What is left of the run, and that the other runs follow it.
    have hbytes : (if skip then ((run :: rest).flatMap (·.bytes)).tail
          else (run :: rest).flatMap (·.bytes)) =
        (if skip then run.bytes.tail else run.bytes) ++ rest.flatMap (·.bytes) := by
      cases skip with
      | false => rfl
      | true => exact List.tail_append_of_ne_nil hrun.nonempty
    have huniform : ∀ b ∈ (if skip then run.bytes.tail else run.bytes),
        isPrintableByte b = run.printable := by
      intro b hb
      cases skip with
      | false => exact hrun.uniform b hb
      | true => exact hrun.uniform b (List.mem_of_mem_tail hb)
    rw [hbytes, runLines]
    generalize (if skip then run.bytes.tail else run.bytes) = bytes at huniform
    simp only
    split
    · rename_i hstring
      rw [Bool.and_eq_true] at hstring
      rw [hstring.1] at huniform
      split
      · rename_i hzero
        obtain ⟨tail, htail⟩ := startsWithZero_spec hzero
        have hnext := @ih hrest true fun _ => hzero
        rw [htail, if_pos rfl, List.tail_cons] at hnext
        have hfirst := Directs.one ⟨_, bytes ++ [0], by simp, listsBytes_stringZero huniform⟩
        have hall := hfirst.append hnext
        rw [List.append_assoc] at hall
        rw [htail]
        exact hall
      · have hne : bytes ≠ [] := by
          rintro rfl
          simp at hstring
        have hfirst := Directs.one ⟨_, bytes, hne, listsBytes_string huniform⟩
        exact hfirst.append (@ih hrest false nofun)
    · exact (directs_numberLines bytes).append (@ih hrest false nofun)

/-- Data are listed as directives for them. -/
theorem directs_dataLines (bytes : List UInt8) : Directs (dataLines bytes) bytes := by
  obtain ⟨hproper, hflat⟩ := byteRuns_spec bytes
  have hlines := @directs_runLines _ hproper false nofun
  rwa [hflat] at hlines

theorem listsBytes_dataLines (bytes : List UInt8) : ListsBytes (dataLines bytes) bytes :=
  (directs_dataLines bytes).listsBytes

/-! ## 4. Rows -/

/-- A row whose line can be read. -/
def Row.Listable : Row → Prop
  | .label name => IsName name ∨ IsLocal name
  | .byte _ => True
  | .code _ i => i.Listable

theorem lexes_labelLine {name : String} {tokens : List Token} (h : LexesOpen name.toList tokens) :
    Lexes (labelLine name).toList (tokens ++ [markToken ':']) := by
  have hcolon : Lexes [':'] [markToken ':'] := lexes_mark (by decide)
  have hstop : IsSpace ['\n'] := by simp [IsSpace]
  have hline := h.close (hcolon.append hstop.lexes) (by decide)
  simpa [labelLine] using hline

theorem labelLine_spells {name : String} (h : IsName name) :
    LinesSpell [labelLine name] [.label name .nowhere] :=
  LinesSpell.line (lexes_labelLine (lexes_name h)) (.label rfl (isSymbol_markToken ':'))

theorem localLabelLine_spells {name : String} (h : IsLocal name) :
    LinesSpell [labelLine name] [.localLabel name .nowhere] := by
  obtain ⟨base, hbase, rfl⟩ := h
  have hdot : Lexes ['.'] [markToken '.'] := lexes_mark (by decide)
  have hname : LexesOpen ("." ++ base).toList
      [markToken '.', { kind := .identifier, text := base }] := by
    rw [String.toList_append]
    exact hdot.appendOpen (lexes_name hbase)
  exact LinesSpell.line (lexes_labelLine hname)
    (.localLabel (isSymbol_markToken '.') rfl (isSymbol_markToken ':'))

/-- The lines of rows are read as statements that stand for the rows. -/
theorem linesOf_spell (hlabels : labels.Readable) {rows : List Row} (h : ∀ r ∈ rows, r.Listable)
    (waiting : List UInt8) :
    ∃ ss, LinesSpell (linesOf labels waiting rows) ss ∧
      Relists labels (waiting.map .byte ++ rows) ss := by
  induction rows generalizing waiting with
  | nil =>
    obtain ⟨ss, hspell, hrelists⟩ := listsBytes_dataLines waiting
    exact ⟨ss, hspell, by simpa using hrelists labels⟩
  | cons r rows ih =>
    obtain ⟨hr, hrest⟩ := List.forall_mem_cons.mp h
    obtain ⟨data, hdata, hbytes⟩ := listsBytes_dataLines waiting
    cases r with
    | label name =>
      obtain ⟨ss, hspell, hrelists⟩ := ih hrest []
      rcases hr with hname | hname
      · exact ⟨data ++ .label name .nowhere :: ss,
          hdata.append ((labelLine_spells hname).cons hspell),
          (hbytes labels).append (.label hname hrelists)⟩
      · exact ⟨data ++ .localLabel name .nowhere :: ss,
          hdata.append ((localLabelLine_spells hname).cons hspell),
          (hbytes labels).append (.localLabel hname hrelists)⟩
    | byte b =>
      obtain ⟨ss, hspell, hrelists⟩ := ih hrest (waiting ++ [b])
      exact ⟨ss, hspell, by simpa using hrelists⟩
    | code l i =>
      obtain ⟨ss, hspell, hrelists⟩ := ih hrest []
      exact ⟨data ++ i.statement labels :: ss,
        hdata.append ((Instruction.codeLine_spells hlabels hr).cons hspell),
        (hbytes labels).append (.code hrelists)⟩

end Listing

end RegAsm
