/-
RegAsm.Proofs.Derivation — the grammar of programs and its derivations.

A derivation is a list of trees, one for each statement, whose leaves are the
tokens it derives; the leaves carry the proofs that they are of the kind the
grammar asks for.  Trees derive what the relations of `Grammar` say
(`stmt_iff_exists_tree`).  The parser is a function that finds every
derivation, so no tokens have two (`StatementTree.eq_of_tokens`), and it reads
exactly the tokens that have one (`parse_eq_ok_iff_derivation`).

1. Leaves.
2. Trees.
3. Trees and the relations of the grammar.
4. Tokens have one tree at most.
5. Programs.
-/
import RegAsm.Proofs.Grammar

namespace RegAsm

open Machine

namespace Grammar

/-! ## 1. Leaves -/

/-- The productions of a statement. -/
inductive StatementForm where
  | label
  | localLabel
  | move
  | nullary
  | unary
  | xor
  | binary
  | data
  | times
  deriving DecidableEq

/-- The keywords that a production can start with. -/
def StatementForm.keywords : StatementForm → List Mnemonic
  | .label | .localLabel => []
  | .move => [.op .mov, .sizedMove .word, .sizedMove .dword, .sizedMove .qword]
  | .nullary => [.op .hlt, .op .ret, .op .iret, .op .sti, .op .cli]
  | .unary => [.op .inc, .op .jmp, .op .call, .op .calle, .op .je, .op .jl, .op .ldidt]
  | .xor => [.op .xor]
  | .binary => [.op .inb, .op .outb, .op .add, .op .mul, .op .cmp]
  | .data => [.db]
  | .times => [.times]

/-- A token of a kind. -/
abbrev TokenOf (kind : TokenKind) := { t : Token // t.kind = kind }

/-- A punctuation mark. -/
abbrev MarkOf (text : String) := { t : Token // IsSymbol text t }

/-- A keyword of a production. -/
@[ext]
structure KeywordOf (form : StatementForm) where
  token : Token
  mnemonic : Mnemonic
  allowed : mnemonic ∈ form.keywords
  spelled : IsKeyword mnemonic token

/-! ## 2. Trees -/

/-- `['.'] Identifier` -/
inductive NameTree where
  | plain (t : TokenOf .identifier)
  | dotted (dot : MarkOf ".") (t : TokenOf .identifier)

/-- `Number`, `Register`, a name, or one of them in parentheses. -/
inductive ValueTree where
  | immediate (t : TokenOf .number)
  | register (t : TokenOf .register)
  | name (n : NameTree)
  | indirectName (l : MarkOf "(") (n : NameTree) (r : MarkOf ")")
  | indirectRegister (l : MarkOf "(") (t : TokenOf .register) (r : MarkOf ")")
  | indirectImmediate (l : MarkOf "(") (t : TokenOf .number) (r : MarkOf ")")

/-- `String` or `Number` -/
inductive ItemTree where
  | string (t : TokenOf .string)
  | number (t : TokenOf .number)

/-- A statement, with one constructor for each production. -/
inductive StatementTree where
  /-- `Identifier ':'` -/
  | label (t : TokenOf .identifier) (colon : MarkOf ":")
  /-- `'.' Identifier ':'` -/
  | localLabel (dot : MarkOf ".") (t : TokenOf .identifier) (colon : MarkOf ":")
  /-- `(MOV | MOVW | MOVD | MOVQ) value ',' value` -/
  | move (k : KeywordOf .move) (a : ValueTree) (comma : MarkOf ",") (b : ValueTree)
  /-- `HLT | RET | IRET | STI | CLI` -/
  | nullary (k : KeywordOf .nullary)
  /-- `(INC | JMP | CALL | CALLE | JE | JL | LDIDT) value` -/
  | unary (k : KeywordOf .unary) (a : ValueTree)
  /-- `XOR value [',' value]` -/
  | xor (k : KeywordOf .xor) (a : ValueTree) (second : Option (MarkOf "," × ValueTree))
  /-- `(INB | OUTB | ADD | MUL | CMP) value ',' value` -/
  | binary (k : KeywordOf .binary) (a : ValueTree) (comma : MarkOf ",") (b : ValueTree)
  /-- `DB item {',' item}` -/
  | data (k : KeywordOf .data) (first : ItemTree) (more : List (MarkOf "," × ItemTree))
  /-- `TIMES Number statement` -/
  | times (k : KeywordOf .times) (count : TokenOf .number) (body : StatementTree)

namespace NameTree

/-- The tokens that are derived. -/
def tokens : NameTree → List Token
  | .plain t => [t.1]
  | .dotted dot t => [dot.1, t.1]

/-- The label that is mentioned. -/
def label : NameTree → String
  | .plain t => t.1.text
  | .dotted _ t => "." ++ t.1.text

/-- The first token. -/
def head : NameTree → Token
  | .plain t => t.1
  | .dotted dot _ => dot.1

end NameTree

namespace ValueTree

def tokens : ValueTree → List Token
  | .immediate t => [t.1]
  | .register t => [t.1]
  | .name n => n.tokens
  | .indirectName l n r => l.1 :: (n.tokens ++ [r.1])
  | .indirectRegister l t r => [l.1, t.1, r.1]
  | .indirectImmediate l t r => [l.1, t.1, r.1]

/-- The operand that is derived. -/
def operand : ValueTree → Operand
  | .immediate t => ⟨.immediate t.1.value, t.1.pos⟩
  | .register t => ⟨.register (.ofInt t.1.id), t.1.pos⟩
  | .name n => ⟨.name n.label, n.head.pos⟩
  | .indirectName l n _ => ⟨.indirectName n.label, l.1.pos⟩
  | .indirectRegister l t _ => ⟨.indirectRegister (.ofInt t.1.id), l.1.pos⟩
  | .indirectImmediate l t _ => ⟨.indirectImmediate t.1.value, l.1.pos⟩

end ValueTree

namespace ItemTree

def token : ItemTree → Token
  | .string t => t.1
  | .number t => t.1

def operand : ItemTree → Operand
  | .string t => ⟨.text t.1.text, t.1.pos⟩
  | .number t => ⟨.immediate t.1.value, t.1.pos⟩

end ItemTree

namespace StatementTree

def tokens : StatementTree → List Token
  | .label t colon => [t.1, colon.1]
  | .localLabel dot t colon => [dot.1, t.1, colon.1]
  | .nullary k => [k.token]
  | .unary k a => k.token :: a.tokens
  | .move k a comma b | .binary k a comma b => k.token :: (a.tokens ++ comma.1 :: b.tokens)
  | .xor k a second =>
    k.token :: (a.tokens ++ second.elim [] fun (comma, b) => comma.1 :: b.tokens)
  | .data k first more =>
    k.token :: first.token :: more.flatMap fun (comma, item) => [comma.1, item.token]
  | .times k count body => k.token :: count.1 :: body.tokens

/-- The statement that is derived. -/
def statement : StatementTree → Statement
  | .label t _ => .label t.1.text t.1.pos
  | .localLabel dot t _ => .localLabel ("." ++ t.1.text) dot.1.pos
  | .nullary k => .instruction k.mnemonic [] k.token.pos
  | .unary k a => .instruction k.mnemonic [a.operand] k.token.pos
  | .move k a _ b | .binary k a _ b =>
    .instruction k.mnemonic [a.operand, b.operand] k.token.pos
  | .xor k a second =>
    .instruction k.mnemonic (a.operand :: second.toList.map fun (_, b) => b.operand) k.token.pos
  | .data k first more =>
    .data (first.operand :: more.map fun (_, item) => item.operand) k.token.pos
  | .times k count body => .times count.1.value body.statement k.token.pos

/-- The production at the root. -/
def form : StatementTree → StatementForm
  | .label _ _ => .label
  | .localLabel _ _ _ => .localLabel
  | .move _ _ _ _ => .move
  | .nullary _ => .nullary
  | .unary _ _ => .unary
  | .xor _ _ _ => .xor
  | .binary _ _ _ _ => .binary
  | .data _ _ _ => .data
  | .times _ _ _ => .times

end StatementTree

/-- A derivation of a program from some tokens. -/
@[ext]
structure Derivation (tokens : List Token) where
  trees : List StatementTree
  spelled : trees.flatMap StatementTree.tokens = tokens

/-- The program that is derived. -/
def Derivation.program {tokens : List Token} (d : Derivation tokens) : List Statement :=
  d.trees.map StatementTree.statement

/-! ## 3. Trees and relations -/

theorem NameTree.name (n : NameTree) :
    ∃ ts, n.tokens = n.head :: ts ∧ Name (n.head :: ts) n.label := by
  cases n with
  | plain t => exact ⟨[], rfl, .plain t.2⟩
  | dotted dot t => exact ⟨[t.1], rfl, .dotted dot.2 t.2⟩

theorem Name.exists_tree {used : List Token} {label : String} (h : Name used label) :
    ∃ n : NameTree, n.tokens = used ∧ n.label = label := by
  cases h with
  | plain ht => exact ⟨.plain ⟨_, ht⟩, rfl, rfl⟩
  | dotted hd ht => exact ⟨.dotted ⟨_, hd⟩ ⟨_, ht⟩, rfl, rfl⟩

theorem ValueTree.spells (v : ValueTree) : Spells v.tokens v.operand := by
  cases v with
  | immediate t => exact .immediate t.2
  | register t => exact .register t.2
  | name n =>
    obtain ⟨ts, htokens, hname⟩ := n.name
    rw [tokens, htokens]
    exact .name hname
  | indirectName l n r =>
    obtain ⟨ts, htokens, hname⟩ := n.name
    rw [tokens, htokens]
    exact .indirectName l.2 hname r.2
  | indirectRegister l t r => exact .indirectRegister l.2 t.2 r.2
  | indirectImmediate l t r => exact .indirectImmediate l.2 t.2 r.2

theorem Spells.exists_tree {used : List Token} {o : Operand} (h : Spells used o) :
    ∃ v : ValueTree, v.tokens = used ∧ v.operand = o := by
  cases h with
  | immediate ht => exact ⟨.immediate ⟨_, ht⟩, rfl, rfl⟩
  | register ht => exact ⟨.register ⟨_, ht⟩, rfl, rfl⟩
  | name hname =>
    cases hname with
    | plain ht => exact ⟨.name (.plain ⟨_, ht⟩), rfl, rfl⟩
    | dotted hd ht => exact ⟨.name (.dotted ⟨_, hd⟩ ⟨_, ht⟩), rfl, rfl⟩
  | indirectName hl hname hr =>
    obtain ⟨n, rfl, rfl⟩ := hname.exists_tree
    exact ⟨.indirectName ⟨_, hl⟩ n ⟨_, hr⟩, rfl, rfl⟩
  | indirectRegister hl ht hr => exact ⟨.indirectRegister ⟨_, hl⟩ ⟨_, ht⟩ ⟨_, hr⟩, rfl, rfl⟩
  | indirectImmediate hl ht hr => exact ⟨.indirectImmediate ⟨_, hl⟩ ⟨_, ht⟩ ⟨_, hr⟩, rfl, rfl⟩

theorem ItemTree.itemOf?_token (i : ItemTree) :
    Production.itemOf? i.token = some i.operand := by
  cases i with
  | string t => simp [token, operand, Production.itemOf?, t.2]
  | number t => simp [token, operand, Production.itemOf?, t.2]

theorem exists_itemTree {t : Token} {o : Operand} (h : Production.itemOf? t = some o) :
    ∃ i : ItemTree, i.token = t ∧ i.operand = o := by
  unfold Production.itemOf? at h
  split at h
  · rename_i hkind
    cases h
    exact ⟨.string ⟨t, hkind⟩, rfl, rfl⟩
  · rename_i hkind
    cases h
    exact ⟨.number ⟨t, hkind⟩, rfl, rfl⟩
  · cases h

theorem items_of_trees (first : ItemTree) (more : List (MarkOf "," × ItemTree)) :
    Items (first.token :: more.flatMap fun (comma, item) => [comma.1, item.token])
      (first.operand :: more.map fun (_, item) => item.operand) := by
  induction more generalizing first with
  | nil => exact .last first.itemOf?_token
  | cons next more ih => exact .more first.itemOf?_token next.1.2 (ih next.2)

theorem Items.exists_trees {used : List Token} {os : List Operand} (h : Items used os) :
    ∃ (first : ItemTree) (more : List (MarkOf "," × ItemTree)),
      (first.token :: more.flatMap fun (comma, item) => [comma.1, item.token]) = used ∧
      (first.operand :: more.map fun (_, item) => item.operand) = os := by
  induction h with
  | last ht =>
    obtain ⟨i, rfl, rfl⟩ := exists_itemTree ht
    exact ⟨i, [], rfl, rfl⟩
  | more ht hc _ ih =>
    obtain ⟨i, rfl, rfl⟩ := exists_itemTree ht
    obtain ⟨first, more, rfl, rfl⟩ := ih
    exact ⟨i, (⟨_, hc⟩, first) :: more, rfl, rfl⟩

/-- The productions have the keywords that take as many operands. -/
theorem mem_arities_iff {m : Mnemonic} :
    (0 ∈ arities m ↔ m ∈ StatementForm.nullary.keywords) ∧
    (1 ∈ arities m ↔ m ∈ StatementForm.unary.keywords ∨ m ∈ StatementForm.xor.keywords) ∧
    (2 ∈ arities m ↔ m ∈ StatementForm.move.keywords ∨ m ∈ StatementForm.xor.keywords ∨
      m ∈ StatementForm.binary.keywords) := by
  cases m with
  | op op => cases op <;> simp [arities, StatementForm.keywords]
  | sizedMove size => cases size <;> simp [arities, StatementForm.keywords]
  | _ => simp [arities, StatementForm.keywords]

theorem StatementTree.stmt (d : StatementTree) : Stmt d.tokens d.statement := by
  induction d with
  | label t colon => exact .label t.2 colon.2
  | localLabel dot t colon => exact .localLabel dot.2 t.2 colon.2
  | move k a comma b =>
    exact .binary k.spelled (mem_arities_iff.2.2.mpr (.inl k.allowed)) a.spells comma.2 b.spells
  | nullary k => exact .nullary k.spelled (mem_arities_iff.1.mpr k.allowed)
  | unary k a => exact .unary k.spelled (mem_arities_iff.2.1.mpr (.inl k.allowed)) a.spells
  | xor k a second =>
    cases second with
    | none =>
      have hunary := Stmt.unary k.spelled (mem_arities_iff.2.1.mpr (.inr k.allowed)) a.spells
      simpa [tokens, statement] using hunary
    | some second =>
      exact .binary k.spelled (mem_arities_iff.2.2.mpr (.inr (.inl k.allowed))) a.spells
        second.1.2 second.2.spells
  | binary k a comma b =>
    exact .binary k.spelled (mem_arities_iff.2.2.mpr (.inr (.inr k.allowed))) a.spells comma.2
      b.spells
  | data k first more =>
    have hdb : k.mnemonic = .db := by simpa [StatementForm.keywords] using k.allowed
    exact .data (hdb ▸ k.spelled) (items_of_trees first more)
  | times k count body ih =>
    have htimes : k.mnemonic = .times := by simpa [StatementForm.keywords] using k.allowed
    exact .times (htimes ▸ k.spelled) count.2 ih

theorem Stmt.exists_tree {used : List Token} {s : Statement} (h : Stmt used s) :
    ∃ d : StatementTree, d.tokens = used ∧ d.statement = s := by
  induction h with
  | label ht hc => exact ⟨.label ⟨_, ht⟩ ⟨_, hc⟩, rfl, rfl⟩
  | localLabel hd ht hc => exact ⟨.localLabel ⟨_, hd⟩ ⟨_, ht⟩ ⟨_, hc⟩, rfl, rfl⟩
  | nullary hk hm => exact ⟨.nullary ⟨_, _, mem_arities_iff.1.mp hm, hk⟩, rfl, rfl⟩
  | unary hk hm ha =>
    obtain ⟨a, rfl, rfl⟩ := ha.exists_tree
    rcases mem_arities_iff.2.1.mp hm with hm | hm
    · exact ⟨.unary ⟨_, _, hm, hk⟩ a, rfl, rfl⟩
    · exact ⟨.xor ⟨_, _, hm, hk⟩ a none, by simp [StatementTree.tokens], rfl⟩
  | binary hk hm ha hc hb =>
    obtain ⟨a, rfl, rfl⟩ := ha.exists_tree
    obtain ⟨b, rfl, rfl⟩ := hb.exists_tree
    rcases mem_arities_iff.2.2.mp hm with hm | hm | hm
    · exact ⟨.move ⟨_, _, hm, hk⟩ a ⟨_, hc⟩ b, rfl, rfl⟩
    · exact ⟨.xor ⟨_, _, hm, hk⟩ a (some (⟨_, hc⟩, b)), rfl, rfl⟩
    · exact ⟨.binary ⟨_, _, hm, hk⟩ a ⟨_, hc⟩ b, rfl, rfl⟩
  | data hk hitems =>
    obtain ⟨first, more, rfl, rfl⟩ := hitems.exists_trees
    exact ⟨.data ⟨_, .db, by simp [StatementForm.keywords], hk⟩ first more, rfl, rfl⟩
  | times hk hn _ ih =>
    obtain ⟨body, rfl, rfl⟩ := ih
    exact ⟨.times ⟨_, .times, by simp [StatementForm.keywords], hk⟩ ⟨_, hn⟩ body, rfl, rfl⟩

/-- Tokens spell a statement if and only if a tree derives it from them. -/
theorem stmt_iff_exists_tree {used : List Token} {s : Statement} :
    Stmt used s ↔ ∃ d : StatementTree, d.tokens = used ∧ d.statement = s := by
  constructor
  · exact Stmt.exists_tree
  · rintro ⟨d, rfl, rfl⟩
    exact d.stmt

theorem program_iff_exists_derivation {used : List Token} {ss : List Statement} :
    Program used ss ↔ ∃ d : Derivation used, d.program = ss := by
  constructor
  · intro h
    induction h with
    | nil => exact ⟨⟨[], rfl⟩, rfl⟩
    | cons hs _ ih =>
      obtain ⟨tree, rfl, rfl⟩ := hs.exists_tree
      obtain ⟨⟨trees, rfl⟩, rfl⟩ := ih
      exact ⟨⟨tree :: trees, rfl⟩, rfl⟩
  · rintro ⟨⟨trees, rfl⟩, rfl⟩
    induction trees with
    | nil => exact .nil
    | cons tree trees ih => exact .cons tree.stmt ih

/-! ## 4. One tree at most -/

/-- Tokens start with one statement at most, if no comma follows that would
make it longer: reading them finds every statement they start with. -/
theorem Stmt.unique {used used' rest rest' : List Token} {s s' : Statement} (h : Stmt used s)
    (h' : Stmt used' s') (hrest : Production.NoComma rest) (hrest' : Production.NoComma rest')
    (heq : used ++ rest = used' ++ rest') : s = s' ∧ rest = rest' := by
  have heof : ({ kind := .eof } : Token).kind = .eof := rfl
  have hread := Production.statement_complete heof h hrest (Nat.le_refl _)
  have hread' := Production.statement_complete heof h' hrest' (Nat.le_refl _)
  rw [← heq, hread] at hread'
  simpa using hread'

theorem NameTree.eq_of_tokens {n n' : NameTree} (h : n.tokens = n'.tokens) : n = n' := by
  cases n <;> cases n' <;> simp_all [tokens, Subtype.ext_iff]

/-- Tokens start with one value at most. -/
theorem ValueTree.unique {v v' : ValueTree} {rest rest' : List Token}
    (h : v.tokens ++ rest = v'.tokens ++ rest') : v = v' ∧ rest = rest' := by
  obtain ⟨hoperand, rfl⟩ := v.spells.unique v'.spells h
  have htokens : v.tokens = v'.tokens := List.append_cancel_right h
  refine ⟨?_, rfl⟩
  -- Trees of two different productions derive operands of different forms.
  cases v <;> cases v' <;> simp [operand] at hoperand
  case name.name n n' => rw [NameTree.eq_of_tokens htokens]
  case indirectName.indirectName l n r l' n' r' =>
    simp only [tokens, List.cons.injEq] at htokens
    obtain ⟨hl, hn⟩ := htokens
    obtain ⟨hn, hr⟩ := List.append_inj' hn rfl
    rw [Subtype.ext hl, NameTree.eq_of_tokens hn, Subtype.ext (List.singleton_inj.mp hr)]
  all_goals simp_all [tokens, Subtype.ext_iff]

theorem ValueTree.eq_of_tokens {v v' : ValueTree} (h : v.tokens = v'.tokens) : v = v' :=
  (unique (congrArg (· ++ []) h)).1

theorem ItemTree.eq_of_token {i i' : ItemTree} (h : i.token = i'.token) : i = i' := by
  cases i with
  | string t =>
    cases i' with
    | string t' => rw [Subtype.ext h]
    | number t' => exact absurd (t.2.symm.trans ((congrArg Token.kind h).trans t'.2)) (by decide)
  | number t =>
    cases i' with
    | string t' => exact absurd (t.2.symm.trans ((congrArg Token.kind h).trans t'.2)) (by decide)
    | number t' => rw [Subtype.ext h]

theorem itemTrees_eq_of_tokens {first first' : ItemTree} {more more' : List (MarkOf "," × ItemTree)}
    (h : (first.token :: more.flatMap fun (comma, item) => [comma.1, item.token]) =
      first'.token :: more'.flatMap fun (comma, item) => [comma.1, item.token]) :
    first = first' ∧ more = more' := by
  induction more generalizing first first' more' with
  | nil =>
    cases more' with
    | nil => exact ⟨ItemTree.eq_of_token (List.singleton_inj.mp h), rfl⟩
    | cons next more' => simp at h
  | cons next more ih =>
    cases more' with
    | nil => simp at h
    | cons next' more' =>
      simp only [List.flatMap_cons, List.cons_append, List.nil_append, List.cons.injEq] at h
      obtain ⟨hfirst, hcomma, hitem, hmore⟩ := h
      obtain ⟨hnext, rfl⟩ := @ih next.2 next'.2 more' (by rw [hitem, hmore])
      exact ⟨ItemTree.eq_of_token hfirst, by rw [Prod.ext (Subtype.ext hcomma) hnext]⟩

theorem values_eq_of_tokens {a a' b b' : ValueTree} {comma comma' : MarkOf ","}
    (h : a.tokens ++ comma.1 :: b.tokens = a'.tokens ++ comma'.1 :: b'.tokens) :
    a = a' ∧ comma = comma' ∧ b = b' := by
  obtain ⟨ha, hrest⟩ := ValueTree.unique h
  obtain ⟨hcomma, hb⟩ := List.cons.inj hrest
  exact ⟨ha, Subtype.ext hcomma, ValueTree.eq_of_tokens hb⟩

theorem KeywordOf.eq_of_token {form : StatementForm} {k k' : KeywordOf form}
    (h : k.token = k'.token) : k = k' := by
  have hindex : ∀ m ∈ form.keywords, ∀ m' ∈ form.keywords, m.index = m'.index → m = m' := by
    cases form <;> decide
  refine KeywordOf.ext h (hindex _ k.allowed _ k'.allowed ?_)
  rw [← k.spelled.2, ← k'.spelled.2, h]

/-- The production that derives a statement; instructions are told apart by
their keywords. -/
def StatementForm.of? : Statement → Option StatementForm
  | .label _ _ => some .label
  | .localLabel _ _ => some .localLabel
  | .instruction m _ _ =>
    [StatementForm.move, .nullary, .unary, .xor, .binary].find? (m ∈ ·.keywords)
  | .data _ _ => some .data
  | .times _ _ _ => some .times
  | .bareTimes _ _ | .other _ _ _ _ => none

theorem StatementForm.find?_keywords :
    ∀ form ∈ [StatementForm.move, .nullary, .unary, .xor, .binary], ∀ m ∈ form.keywords,
      [StatementForm.move, .nullary, .unary, .xor, .binary].find? (m ∈ ·.keywords) = some form := by
  decide

theorem StatementTree.form_of_statement (d : StatementTree) :
    StatementForm.of? d.statement = some d.form := by
  cases d with
  | move k a comma b => exact StatementForm.find?_keywords .move (by simp) _ k.allowed
  | nullary k => exact StatementForm.find?_keywords .nullary (by simp) _ k.allowed
  | unary k a => exact StatementForm.find?_keywords .unary (by simp) _ k.allowed
  | xor k a second => exact StatementForm.find?_keywords .xor (by simp) _ k.allowed
  | binary k a comma b => exact StatementForm.find?_keywords .binary (by simp) _ k.allowed
  | _ => rfl

theorem StatementTree.form_eq_of_tokens {d d' : StatementTree} (h : d.tokens = d'.tokens) :
    d.form = d'.form := by
  have hnil : Production.NoComma [] := by simp [Production.NoComma]
  obtain ⟨hstatement, -⟩ := d.stmt.unique d'.stmt hnil hnil (congrArg (· ++ []) h)
  have hform := d.form_of_statement
  rw [hstatement, d'.form_of_statement] at hform
  exact (Option.some.inj hform).symm

/-- Tokens have one tree at most. -/
theorem StatementTree.eq_of_tokens {d d' : StatementTree} (h : d.tokens = d'.tokens) : d = d' := by
  have hform := form_eq_of_tokens h
  induction d generalizing d' with
  | label t colon =>
    cases d' with
    | label t' colon' => simp_all [tokens, Subtype.ext_iff]
    | _ => cases hform
  | localLabel dot t colon =>
    cases d' with
    | localLabel dot' t' colon' => simp_all [tokens, Subtype.ext_iff]
    | _ => cases hform
  | move k a comma b =>
    cases d' with
    | move k' a' comma' b' =>
      obtain ⟨hk, hvalues⟩ := List.cons.inj h
      obtain ⟨rfl, rfl, rfl⟩ := values_eq_of_tokens hvalues
      rw [KeywordOf.eq_of_token hk]
    | _ => cases hform
  | nullary k =>
    cases d' with
    | nullary k' => rw [KeywordOf.eq_of_token (List.cons.inj h).1]
    | _ => cases hform
  | unary k a =>
    cases d' with
    | unary k' a' =>
      obtain ⟨hk, ha⟩ := List.cons.inj h
      rw [KeywordOf.eq_of_token hk, ValueTree.eq_of_tokens ha]
    | _ => cases hform
  | xor k a second =>
    cases d' with
    | xor k' a' second' =>
      obtain ⟨hk, hvalues⟩ := List.cons.inj h
      obtain ⟨rfl, hsecond⟩ := ValueTree.unique hvalues
      rw [KeywordOf.eq_of_token hk]
      cases second with
      | none => cases second' <;> simp_all
      | some second =>
        cases second' with
        | none => cases hsecond
        | some second' =>
          obtain ⟨hcomma, hb⟩ := List.cons.inj hsecond
          rw [Prod.ext (Subtype.ext hcomma) (ValueTree.eq_of_tokens hb)]
    | _ => cases hform
  | binary k a comma b =>
    cases d' with
    | binary k' a' comma' b' =>
      obtain ⟨hk, hvalues⟩ := List.cons.inj h
      obtain ⟨rfl, rfl, rfl⟩ := values_eq_of_tokens hvalues
      rw [KeywordOf.eq_of_token hk]
    | _ => cases hform
  | data k first more =>
    cases d' with
    | data k' first' more' =>
      obtain ⟨hk, hitems⟩ := List.cons.inj h
      obtain ⟨rfl, rfl⟩ := itemTrees_eq_of_tokens hitems
      rw [KeywordOf.eq_of_token hk]
    | _ => cases hform
  | times k count body ih =>
    cases d' with
    | times k' count' body' =>
      obtain ⟨hk, hrest⟩ := List.cons.inj h
      obtain ⟨hcount, hbody⟩ := List.cons.inj hrest
      rw [KeywordOf.eq_of_token hk, Subtype.ext hcount, ih hbody (form_eq_of_tokens hbody)]
    | _ => cases hform

/-! ## 5. Programs -/

theorem noComma_trees (trees : List StatementTree) :
    Production.NoComma (trees.flatMap StatementTree.tokens) := by
  have hprogram := program_iff_exists_derivation.mpr ⟨⟨trees, rfl⟩, rfl⟩
  have hend : AtEnd [] := nofun
  have hnone := hprogram.noComma hend
  rwa [List.append_nil] at hnone

theorem trees_eq_of_tokens {trees trees' : List StatementTree}
    (h : trees.flatMap StatementTree.tokens = trees'.flatMap StatementTree.tokens) :
    trees = trees' := by
  induction trees generalizing trees' with
  | nil =>
    cases trees' with
    | nil => rfl
    | cons d' trees' =>
      obtain ⟨t, ts, htokens, -⟩ := d'.stmt.exists_head
      simp [htokens] at h
  | cons d trees ih =>
    cases trees' with
    | nil =>
      obtain ⟨t, ts, htokens, -⟩ := d.stmt.exists_head
      simp [htokens] at h
    | cons d' trees' =>
      rw [List.flatMap_cons, List.flatMap_cons] at h
      -- What follows a statement does not start with a comma, so both end at one place.
      obtain ⟨-, hrest⟩ := d.stmt.unique d'.stmt (noComma_trees trees) (noComma_trees trees') h
      rw [hrest] at h
      rw [StatementTree.eq_of_tokens (List.append_cancel_right h), ih hrest]

/-- The grammar is unambiguous. -/
instance (tokens : List Token) : Subsingleton (Derivation tokens) :=
  ⟨fun d d' => Derivation.ext (trees_eq_of_tokens (d.spelled.trans d'.spelled.symm))⟩

/-- The tokens in front of the first end token. -/
def beforeEnd (tokens : List Token) : List Token := tokens.takeWhile (·.kind ≠ .eof)

theorem beforeEnd_append {used rest : List Token} (hused : ∀ t ∈ used, t.kind ≠ .eof)
    (hrest : AtEnd rest) : beforeEnd (used ++ rest) = used := by
  rw [beforeEnd, List.takeWhile_append_of_pos (by simpa using hused)]
  cases rest with
  | nil => simp
  | cons t ts => simp [hrest t ts rfl]

theorem atEnd_dropWhile (tokens : List Token) : AtEnd (tokens.dropWhile (·.kind ≠ .eof)) := by
  intro t ts heq
  have hhead := List.head?_dropWhile_not (fun t : Token => decide (t.kind ≠ .eof)) tokens
  rw [heq] at hhead
  simpa using hhead

end Grammar

open Grammar

/-- The parser accepts exactly the token lists that can be derived up to their
first end token, and what it reads is what the one derivation of these tokens
derives. -/
theorem parse_eq_ok_iff_derivation (tokens : List Token) (remembers : Bool) :
    (∀ program, (Parser.ofTokens tokens remembers).parse.1 = .ok program ↔
      ∃ d : Derivation (beforeEnd tokens), d.program = program) ∧
    ∀ d d' : Derivation (beforeEnd tokens), d = d' := by
  refine ⟨fun program => ?_, Subsingleton.elim⟩
  rw [Parser.parse_tokens_iff, ← program_iff_exists_derivation]
  constructor
  · rintro ⟨used, rest, rfl, hprogram, hrest⟩
    rwa [beforeEnd_append hprogram.kind_ne_eof hrest]
  · intro hprogram
    exact ⟨beforeEnd tokens, _, List.takeWhile_append_dropWhile.symm, hprogram,
      atEnd_dropWhile tokens⟩

end RegAsm
