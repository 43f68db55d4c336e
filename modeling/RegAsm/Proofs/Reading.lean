/-
RegAsm.Proofs.Reading — programs as they come from a text.

Not every list of statements is spelled by a text: a label that was read is a
name, a local one has a dot in front, and an instruction has as many operands
as its keyword allows (`written_of_parse`).  Where a statement stands in its
text is the only thing that cannot be told from the tokens without their
places (`parse_of_scan`).

1. Statements that were read.
2. The labels of such statements.
3. Statements without their places.
-/
import RegAsm.Proofs.Grammar
import RegAsm.Proofs.Resolution
import RegAsm.Proofs.Words

namespace RegAsm

open Machine Grammar
open Source (Position)

/-! ## 1. Statements that were read -/

/-- A name with a dot in front of it. -/
def IsLocal (label : String) : Prop := ∃ base, IsName base ∧ label = "." ++ base

/-- An operand of an instruction, as far as it can be spelled. -/
def OperandForm.Written : OperandForm → Prop
  | .name label | .indirectName label => IsName label ∨ IsLocal label
  | .text _ | .other _ => False
  | _ => True

/-- An item of a data directive, as far as it can be spelled. -/
def OperandForm.IsDatum : OperandForm → Prop
  | .text _ | .immediate _ => True
  | _ => False

/-- A statement, as far as it can be spelled. -/
def Statement.Written : Statement → Prop
  | .label name _ => IsName name
  | .localLabel name _ => IsLocal name
  | .instruction m operands _ =>
    operands.length ∈ arities m ∧ ∀ o ∈ operands, o.form.Written
  | .data items _ => items ≠ [] ∧ ∀ o ∈ items, o.form.IsDatum
  | .times _ body _ => body.Written
  | .bareTimes _ _ | .other _ _ _ _ => False

/-- The tokens of a source are those that are scanned, with their places. -/
theorem unplaced_tokenize (source : String) :
    (tokenize source).map Token.unplaced = scan assembly source.toList :=
  Lexer.map_unplaced_all _ rfl

theorem isName_of_mem_tokenize {source : String} {t : Token} (h : t ∈ tokenize source)
    (hkind : t.kind = .identifier) : IsName t.text := by
  have hmem : t.unplaced ∈ scan assembly source.toList := by
    rw [← unplaced_tokenize]
    exact List.mem_map_of_mem h
  have hname := isName_of_mem_scan hmem hkind
  exact hname

namespace Grammar

/-- Every name among some tokens is one that a text can hold. -/
def NamesIn (ts : List Token) : Prop := ∀ t ∈ ts, t.kind = .identifier → IsName t.text

theorem NamesIn.mono {ts ts' : List Token} (h : NamesIn ts) (hsub : ts' ⊆ ts) : NamesIn ts' :=
  fun t ht => h t (hsub ht)

theorem Name.isName {used : List Token} {label : String} (h : Name used label)
    (hnames : NamesIn used) : IsName label ∨ IsLocal label := by
  cases h with
  | plain ht => exact .inl (hnames _ (by simp) ht)
  | @dotted d t hd ht => exact .inr ⟨t.text, hnames t (by simp) ht, rfl⟩

theorem Spells.written {used : List Token} {o : Operand} (h : Spells used o)
    (hnames : NamesIn used) : o.form.Written := by
  cases h with
  | name hname => exact hname.isName hnames
  | indirectName hl hname hr => exact hname.isName (hnames.mono (by intro t ht; simp [ht]))
  | _ => trivial

theorem Items.isDatum {used : List Token} {items : List Operand} (h : Items used items) :
    items ≠ [] ∧ ∀ o ∈ items, o.form.IsDatum := by
  have hitem : ∀ {t : Token} {o : Operand}, Production.itemOf? t = some o → o.form.IsDatum := by
    intro t o h
    unfold Production.itemOf? at h
    split at h <;> cases h <;> trivial
  induction h with
  | last ht => exact ⟨by simp, by simpa using hitem ht⟩
  | more ht hc hrest ih => exact ⟨by simp, List.forall_mem_cons.mpr ⟨hitem ht, ih.2⟩⟩

theorem Stmt.written {used : List Token} {s : Statement} (h : Stmt used s)
    (hnames : NamesIn used) : s.Written := by
  induction h with
  | label ht hc => exact hnames _ (by simp) ht
  | @localLabel d t c hd ht hc => exact ⟨t.text, hnames t (by simp) ht, rfl⟩
  | nullary hk ha => exact ⟨ha, by simp⟩
  | unary hk ha h =>
    exact ⟨ha, by simpa using h.written (hnames.mono (List.subset_cons_self _ _))⟩
  | binary hk ha h hc h' =>
    refine ⟨ha, ?_⟩
    have hleft := h.written (hnames.mono (by intro t ht; simp [ht]))
    have hright := h'.written (hnames.mono (by intro t ht; simp [ht]))
    simp [hleft, hright]
  | data hk h => exact h.isDatum
  | times hk hn h ih => exact ih (hnames.mono (by intro t ht; simp [ht]))

theorem Program.written {used : List Token} {ss : List Statement} (h : Program used ss)
    (hnames : NamesIn used) : ∀ s ∈ ss, s.Written := by
  induction h with
  | nil => simp
  | cons hs hrest ih =>
    exact List.forall_mem_cons.mpr
      ⟨hs.written (hnames.mono (List.subset_append_left _ _)),
        ih (hnames.mono (List.subset_append_right _ _))⟩

end Grammar

theorem parse_iff {source : String} {program : List Statement} :
    parse source = .ok program ↔
      ∃ used rest, tokenize source = used ++ rest ∧ Program used program ∧ AtEnd rest :=
  Parser.parse_tokens_iff

/-- A text is read the same whether or not the parser remembers what it read. -/
theorem parse_iff_forgetful {source : String} {program : List Statement} :
    parse source = .ok program ↔
      (Parser.ofTokens (tokenize source) false).parse.1 = .ok program :=
  Parser.parse_tokens_iff.trans Parser.parse_tokens_iff.symm

/-- What a parser that remembers nothing reads, is read.  Its answer can be
evaluated. -/
theorem exists_parse_of_forgetful {source : String} {P : List Statement → Prop}
    (h : ∃ program ∈ (Parser.ofTokens (tokenize source) false).parse.1.toOption, P program) :
    ∃ program, parse source = .ok program ∧ P program := by
  obtain ⟨program, hmem, hP⟩ := h
  refine ⟨program, parse_iff_forgetful.mpr ?_, hP⟩
  cases hread : (Parser.ofTokens (tokenize source) false).parse.1 with
  | error e => rw [hread] at hmem; cases hmem
  | ok read => rw [hread] at hmem; cases hmem; rfl

/-- What was read is spelled. -/
theorem written_of_parse {source : String} {program : List Statement}
    (h : parse source = .ok program) : ∀ s ∈ program, s.Written := by
  obtain ⟨used, rest, htokens, hprogram, -⟩ := parse_iff.mp h
  refine hprogram.written fun t ht hkind => ?_
  exact isName_of_mem_tokenize (htokens ▸ List.mem_append_left rest ht) hkind

theorem Statement.Written.unrolled {s : Statement} (h : s.Written) :
    ∀ t ∈ s.unrolled, t.Written := by
  induction s with
  | times count body pos ih =>
    intro t ht
    simp only [Statement.unrolled, List.mem_flatten, List.mem_replicate] at ht
    obtain ⟨ts, ⟨-, rfl⟩, ht⟩ := ht
    exact ih h t ht
  | _ =>
    intro t ht
    simp only [Statement.unrolled, List.mem_singleton] at ht
    exact ht ▸ h

theorem written_unroll {program : List Statement} (h : ∀ s ∈ program, s.Written) :
    ∀ s ∈ unroll program, s.Written := by
  intro s hs
  obtain ⟨t, ht, hs⟩ := List.mem_flatMap.mp hs
  exact (h t ht).unrolled s hs

/-! ## 2. Labels -/

theorem IsName.isLocalName {name : String} (h : IsName name) : isLocalName name = false := by
  rw [RegAsm.isLocalName, beq_eq_false_iff_ne]
  exact h.head_ne_dot

theorem IsLocal.isLocalName {name : String} (h : IsLocal name) : isLocalName name = true := by
  obtain ⟨base, -, rfl⟩ := h
  rw [RegAsm.isLocalName, String.toList_append]
  rfl

/-- The labels of statements that were read have names that a text can hold. -/
theorem isName_of_mem_declarationsFrom {ss : List Statement} (h : ∀ s ∈ ss, s.Written)
    {address : Nat} {d : Declaration} (hd : d ∈ declarationsFrom address ss) :
    (d.isGlobal = true ∧ IsName d.name) ∨ (d.isGlobal = false ∧ IsLocal d.name) := by
  induction ss generalizing address with
  | nil => cases hd
  | cons s rest ih =>
    have hs := h s List.mem_cons_self
    rcases List.mem_append.mp hd with hd | hd
    · cases s with
      | label name pos => cases List.mem_singleton.mp hd; exact .inl ⟨rfl, hs⟩
      | localLabel name pos => cases List.mem_singleton.mp hd; exact .inr ⟨rfl, hs⟩
      | _ => cases hd
    · exact ih (fun t ht => h t (List.mem_cons_of_mem s ht)) hd

/-- The local labels of statements that were read are the ones with a leading
dot. -/
theorem wellNamed_declarationsFrom {ss : List Statement} (h : ∀ s ∈ ss, s.Written)
    (address : Nat) : WellNamed (declarationsFrom address ss) := by
  intro d hd
  rcases isName_of_mem_declarationsFrom h hd with ⟨hglobal, hname⟩ | ⟨hlocal, hname⟩
  · rw [hname.isLocalName, hglobal]
    rfl
  · rw [hname.isLocalName, hlocal]
    rfl

/-! ## 3. Statements without their places -/

/-- The operand without its place. -/
def Operand.unplaced (o : Operand) : Operand := { o with pos := .nowhere }

/-- The statement without its places. -/
def Statement.unplaced : Statement → Statement
  | .label name _ => .label name .nowhere
  | .localLabel name _ => .localLabel name .nowhere
  | .instruction m operands _ => .instruction m (operands.map Operand.unplaced) .nowhere
  | .data items _ => .data (items.map Operand.unplaced) .nowhere
  | .times count body _ => .times count body.unplaced .nowhere
  | .bareTimes count _ => .bareTimes count .nowhere
  | .other tag m operands _ => .other tag m (operands.map Operand.unplaced) .nowhere

namespace Grammar

theorem Name.placed {ts : List Token} {label : String} (h : Name (ts.map Token.unplaced) label) :
    Name ts label := by
  generalize hts : ts.map Token.unplaced = used at h
  cases h with
  | plain ht =>
    obtain ⟨t, rfl, rfl⟩ := List.map_eq_singleton_iff.mp hts
    exact .plain ht
  | dotted hd ht =>
    obtain ⟨d, tail, rfl, rfl, htail⟩ := List.map_eq_cons_iff.mp hts
    obtain ⟨t, rfl, rfl⟩ := List.map_eq_singleton_iff.mp htail
    exact .dotted hd ht

/-- What tokens without places spell, the tokens spell, places aside. -/
theorem Spells.placed {ts : List Token} {o : Operand} (h : Spells (ts.map Token.unplaced) o) :
    ∃ o', Spells ts o' ∧ o'.unplaced = o := by
  generalize hts : ts.map Token.unplaced = used at h
  cases h with
  | immediate ht =>
    obtain ⟨t, rfl, rfl⟩ := List.map_eq_singleton_iff.mp hts
    exact ⟨_, .immediate ht, rfl⟩
  | register ht =>
    obtain ⟨t, rfl, rfl⟩ := List.map_eq_singleton_iff.mp hts
    exact ⟨_, .register ht, rfl⟩
  | name hname =>
    obtain ⟨t, tail, rfl, rfl, rfl⟩ := List.map_eq_cons_iff.mp hts
    exact ⟨_, .name (Name.placed hname), rfl⟩
  | indirectName hl hname hr =>
    obtain ⟨l, tail, rfl, rfl, htail⟩ := List.map_eq_cons_iff.mp hts
    obtain ⟨ns, rs, rfl, rfl, hrs⟩ := List.map_eq_append_iff.mp htail
    obtain ⟨r, rfl, rfl⟩ := List.map_eq_singleton_iff.mp hrs
    exact ⟨_, .indirectName hl (Name.placed hname) hr, rfl⟩
  | indirectRegister hl ht hr =>
    obtain ⟨l, tail, rfl, rfl, htail⟩ := List.map_eq_cons_iff.mp hts
    obtain ⟨t, tail', rfl, rfl, htail'⟩ := List.map_eq_cons_iff.mp htail
    obtain ⟨r, rfl, rfl⟩ := List.map_eq_singleton_iff.mp htail'
    exact ⟨_, .indirectRegister hl ht hr, rfl⟩
  | indirectImmediate hl ht hr =>
    obtain ⟨l, tail, rfl, rfl, htail⟩ := List.map_eq_cons_iff.mp hts
    obtain ⟨t, tail', rfl, rfl, htail'⟩ := List.map_eq_cons_iff.mp htail
    obtain ⟨r, rfl, rfl⟩ := List.map_eq_singleton_iff.mp htail'
    exact ⟨_, .indirectImmediate hl ht hr, rfl⟩

theorem Items.placed {used : List Token} {items : List Operand} (h : Items used items) :
    ∀ {ts : List Token}, ts.map Token.unplaced = used →
      ∃ items', Items ts items' ∧ items'.map Operand.unplaced = items := by
  have hitem : ∀ {t : Token} {o : Operand}, Production.itemOf? t.unplaced = some o →
      ∃ o', Production.itemOf? t = some o' ∧ o'.unplaced = o := by
    intro t o h
    unfold Production.itemOf? at h ⊢
    have hkind : t.unplaced.kind = t.kind := rfl
    rw [hkind] at h
    split at h <;> cases h <;> exact ⟨_, rfl, rfl⟩
  induction h with
  | last ht =>
    intro ts hts
    obtain ⟨t, rfl, rfl⟩ := List.map_eq_singleton_iff.mp hts
    obtain ⟨o, ho, rfl⟩ := hitem ht
    exact ⟨[o], .last ho, rfl⟩
  | more ht hc hrest ih =>
    intro ts hts
    obtain ⟨t, tail, rfl, rfl, htail⟩ := List.map_eq_cons_iff.mp hts
    obtain ⟨c, tail', rfl, rfl, htail'⟩ := List.map_eq_cons_iff.mp htail
    obtain ⟨o, ho, rfl⟩ := hitem ht
    obtain ⟨os, hos, rfl⟩ := ih htail'
    exact ⟨o :: os, .more ho hc hos, rfl⟩

theorem Stmt.placed {used : List Token} {s : Statement} (h : Stmt used s) :
    ∀ {ts : List Token}, ts.map Token.unplaced = used → ∃ s', Stmt ts s' ∧ s'.unplaced = s := by
  induction h with
  | label ht hc =>
    intro ts hts
    obtain ⟨t, tail, rfl, rfl, htail⟩ := List.map_eq_cons_iff.mp hts
    obtain ⟨c, rfl, rfl⟩ := List.map_eq_singleton_iff.mp htail
    exact ⟨_, .label ht hc, rfl⟩
  | localLabel hd ht hc =>
    intro ts hts
    obtain ⟨d, tail, rfl, rfl, htail⟩ := List.map_eq_cons_iff.mp hts
    obtain ⟨t, tail', rfl, rfl, htail'⟩ := List.map_eq_cons_iff.mp htail
    obtain ⟨c, rfl, rfl⟩ := List.map_eq_singleton_iff.mp htail'
    exact ⟨_, .localLabel hd ht hc, rfl⟩
  | nullary hk ha =>
    intro ts hts
    obtain ⟨k, rfl, rfl⟩ := List.map_eq_singleton_iff.mp hts
    exact ⟨_, .nullary hk ha, rfl⟩
  | unary hk ha h =>
    intro ts hts
    obtain ⟨k, tail, rfl, rfl, rfl⟩ := List.map_eq_cons_iff.mp hts
    obtain ⟨o, ho, rfl⟩ := h.placed
    exact ⟨_, .unary hk ha ho, rfl⟩
  | binary hk ha h hc h' =>
    intro ts hts
    obtain ⟨k, tail, rfl, rfl, htail⟩ := List.map_eq_cons_iff.mp hts
    obtain ⟨as, cs, rfl, rfl, hcs⟩ := List.map_eq_append_iff.mp htail
    obtain ⟨c, bs, rfl, rfl, rfl⟩ := List.map_eq_cons_iff.mp hcs
    obtain ⟨a, ha', rfl⟩ := h.placed
    obtain ⟨b, hb, rfl⟩ := h'.placed
    exact ⟨_, .binary hk ha ha' hc hb, rfl⟩
  | data hk h =>
    intro ts hts
    obtain ⟨k, tail, rfl, rfl, htail⟩ := List.map_eq_cons_iff.mp hts
    obtain ⟨items, hitems, rfl⟩ := h.placed htail
    exact ⟨_, .data hk hitems, rfl⟩
  | times hk hn h ih =>
    intro ts hts
    obtain ⟨k, tail, rfl, rfl, htail⟩ := List.map_eq_cons_iff.mp hts
    obtain ⟨n, tail', rfl, rfl, htail'⟩ := List.map_eq_cons_iff.mp htail
    obtain ⟨body, hbody, rfl⟩ := ih htail'
    exact ⟨_, .times hk hn hbody, rfl⟩

theorem Program.placed {used : List Token} {ss : List Statement} (h : Program used ss) :
    ∀ {ts : List Token}, ts.map Token.unplaced = used →
      ∃ ss', Program ts ss' ∧ ss'.map Statement.unplaced = ss := by
  induction h with
  | nil =>
    intro ts hts
    cases List.map_eq_nil_iff.mp hts
    exact ⟨[], .nil, rfl⟩
  | cons hs hrest ih =>
    intro ts hts
    obtain ⟨first, others, rfl, hfirst, hothers⟩ := List.map_eq_append_iff.mp hts
    obtain ⟨s, hs', rfl⟩ := hs.placed hfirst
    obtain ⟨ss, hss, rfl⟩ := ih hothers
    exact ⟨s :: ss, .cons hs' hss, rfl⟩

end Grammar

/-- A text is read as the statements that its tokens spell, places aside. -/
theorem parse_of_scan {source : String} {used : List Token} {ss : List Statement}
    (hscan : scan assembly source.toList = used ++ [Token.finish]) (h : Program used ss) :
    ∃ program, parse source = .ok program ∧ program.map Statement.unplaced = ss := by
  rw [← unplaced_tokenize] at hscan
  obtain ⟨ts, rest, htokens, hused, hrest⟩ := List.map_eq_append_iff.mp hscan
  obtain ⟨program, hprogram, hss⟩ := h.placed hused
  refine ⟨program, parse_iff.mpr ⟨ts, rest, htokens, hprogram, ?_⟩, hss⟩
  rintro t tail rfl
  simp only [List.map_cons, List.cons.injEq] at hrest
  have hkind : t.unplaced.kind = Token.finish.kind := congrArg Token.kind hrest.1
  exact hkind

end RegAsm
