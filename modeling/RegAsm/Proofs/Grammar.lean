/-
RegAsm.Proofs.Grammar — the statements that a list of tokens spells.

The grammar is given as relations between tokens and what they spell; nothing
in it says in which order productions are tried or what is remembered.  A
statement is read if and only if the tokens start with a spelling of it that
what follows does not make longer (`on_statement_iff`).  For whole programs this
gives `parse_tokens_iff`.

1. The grammar.
2. What the primitive productions read.
3. Operands.
4. Statements.
5. Programs.
-/
import RegAsm.Proofs.Memoization

namespace RegAsm

open Machine
open Source (Position)

/-! ## 1. The grammar -/

namespace Grammar

def IsSymbol (text : String) (t : Token) : Prop := t.kind = .symbol ∧ t.text = text

def IsKeyword (m : Mnemonic) (t : Token) : Prop := t.kind = .mnemonic ∧ t.id = m.index

/-- Tokens that spell a label where it is mentioned. -/
inductive Name : List Token → String → Prop
  | plain {t : Token} : t.kind = .identifier → Name [t] t.text
  | dotted {d t : Token} : IsSymbol "." d → t.kind = .identifier → Name [d, t] ("." ++ t.text)

/-- Tokens that spell an operand. -/
inductive Spells : List Token → Operand → Prop
  | immediate {t : Token} : t.kind = .number → Spells [t] ⟨.immediate t.value, t.pos⟩
  | register {t : Token} : t.kind = .register → Spells [t] ⟨.register (.ofInt t.id), t.pos⟩
  | name {t : Token} {ts : List Token} {label : String} :
    Name (t :: ts) label → Spells (t :: ts) ⟨.name label, t.pos⟩
  | indirectName {l r : Token} {ts : List Token} {label : String} : IsSymbol "(" l →
    Name ts label → IsSymbol ")" r → Spells (l :: (ts ++ [r])) ⟨.indirectName label, l.pos⟩
  | indirectRegister {l t r : Token} : IsSymbol "(" l → t.kind = .register → IsSymbol ")" r →
    Spells [l, t, r] ⟨.indirectRegister (.ofInt t.id), l.pos⟩
  | indirectImmediate {l t r : Token} : IsSymbol "(" l → t.kind = .number → IsSymbol ")" r →
    Spells [l, t, r] ⟨.indirectImmediate t.value, l.pos⟩

/-- Tokens that spell the items of a data directive. -/
inductive Items : List Token → List Operand → Prop
  | last {t : Token} {o : Operand} : Production.itemOf? t = some o → Items [t] [o]
  | more {t c : Token} {ts : List Token} {o : Operand} {os : List Operand} :
    Production.itemOf? t = some o → IsSymbol "," c → Items ts os → Items (t :: c :: ts) (o :: os)

/-- The numbers of operands that a keyword can have. -/
def arities : Mnemonic → List Nat
  | .op .hlt | .op .ret | .op .iret | .op .sti | .op .cli => [0]
  | .op .inc | .op .jmp | .op .call | .op .calle | .op .je | .op .jl | .op .ldidt => [1]
  | .op .xor => [1, 2]
  | .op .inb | .op .outb | .op .add | .op .mul | .op .cmp | .op .mov | .sizedMove _ => [2]
  | _ => []

/-- Tokens that spell a statement. -/
inductive Stmt : List Token → Statement → Prop
  | label {t c : Token} : t.kind = .identifier → IsSymbol ":" c → Stmt [t, c] (.label t.text t.pos)
  | localLabel {d t c : Token} : IsSymbol "." d → t.kind = .identifier → IsSymbol ":" c →
    Stmt [d, t, c] (.localLabel ("." ++ t.text) d.pos)
  | nullary {k : Token} {m : Mnemonic} : IsKeyword m k → 0 ∈ arities m →
    Stmt [k] (.instruction m [] k.pos)
  | unary {k : Token} {m : Mnemonic} {ts : List Token} {a : Operand} : IsKeyword m k →
    1 ∈ arities m → Spells ts a → Stmt (k :: ts) (.instruction m [a] k.pos)
  | binary {k c : Token} {m : Mnemonic} {ts ts' : List Token} {a b : Operand} : IsKeyword m k →
    2 ∈ arities m → Spells ts a → IsSymbol "," c → Spells ts' b →
    Stmt (k :: (ts ++ c :: ts')) (.instruction m [a, b] k.pos)
  | data {k : Token} {ts : List Token} {items : List Operand} : IsKeyword .db k → Items ts items →
    Stmt (k :: ts) (.data items k.pos)
  | times {k n : Token} {ts : List Token} {s : Statement} : IsKeyword .times k →
    n.kind = .number → Stmt ts s → Stmt (k :: n :: ts) (.times n.value s k.pos)

/-- Tokens that spell statements one after the other. -/
inductive Program : List Token → List Statement → Prop
  | nil : Program [] []
  | cons {ts ts' : List Token} {s : Statement} {ss : List Statement} : Stmt ts s →
    Program ts' ss → Program (ts ++ ts') (s :: ss)

theorem Name.unique {used used' rest rest' : List Token} {a a' : String} (h : Name used a)
    (h' : Name used' a') (heq : used ++ rest = used' ++ rest') :
    a = a' ∧ rest = rest' ∧ used = used' := by
  cases h <;> cases h' <;> simp_all [IsSymbol]

/-- Tokens start with one operand at most. -/
theorem Spells.unique {used used' rest rest' : List Token} {o o' : Operand} (h : Spells used o)
    (h' : Spells used' o') (heq : used ++ rest = used' ++ rest') : o = o' ∧ rest = rest' := by
  cases h with
  | indirectName hl hname hr =>
    cases h' with
    | indirectName hl' hname' hr' =>
      simp only [List.cons_append, List.append_assoc, List.cons.injEq] at heq
      obtain ⟨rfl, heq⟩ := heq
      obtain ⟨rfl, hrest, rfl⟩ := hname.unique hname' heq
      simp_all
    | name hname' => cases hname <;> cases hname' <;> simp_all [IsSymbol]
    | _ => cases hname <;> simp_all [IsSymbol]
  | name hname =>
    cases h' with
    | indirectName hl' hname' hr' => cases hname <;> cases hname' <;> simp_all [IsSymbol]
    | name hname' => cases hname <;> cases hname' <;> simp_all [IsSymbol]
    | _ => cases hname <;> simp_all [IsSymbol]
  | _ =>
    cases h' with
    | name hname' => cases hname' <;> simp_all [IsSymbol]
    | indirectName hl' hname' hr' => cases hname' <;> simp_all [IsSymbol]
    | _ => simp_all [IsSymbol]

end Grammar

/-! ## 2. Primitive productions -/

namespace Production

open Grammar

variable {α β : Type} {eof : Token} {ts rest : List Token}

theorem firstToken_iff {g : Token → Option α} {a : α} :
    firstToken g ts = some (a, rest) ↔ ∃ t, g t = some a ∧ ts = t :: rest := by
  cases ts with
  | nil => simp [firstToken]
  | cons t ts =>
    simp only [firstToken, Option.map_eq_some_iff, Prod.mk.injEq, List.cons.injEq]
    grind

theorem on_bind_iff {p : Production α} {f : α → Production β} [Uniform p] [∀ a, Uniform (f a)]
    (heof : eof.kind = .eof) {b : β} :
    (p >>= f).on eof ts = some (b, rest) ↔
      ∃ a mid, p.on eof ts = some (a, mid) ∧ (f a).on eof mid = some (b, rest) := by
  rw [on_bind p f heof, Option.bind_eq_some_iff, Prod.exists]

theorem on_pure_iff (heof : eof.kind = .eof) {a b : α} :
    (Pure.pure a : Production α).on eof ts = some (b, rest) ↔ b = a ∧ rest = ts := by
  rw [(pure_spec ts.length a).2 eof ts heof (Nat.le_refl _)]
  simp [eq_comm]

theorem on_place_iff (heof : eof.kind = .eof) {pos : Position} :
    place.on eof ts = some (pos, rest) ↔ pos = (ts.headD eof).pos ∧ rest = ts := by
  rw [(place_spec ts.length).2 eof ts heof (Nat.le_refl _)]
  simp [eq_comm]

theorem on_take_iff (heof : eof.kind = .eof) {kind : TokenKind} (hkind : kind ≠ .eof) {t : Token} :
    (take kind).on eof ts = some (t, rest) ↔ t.kind = kind ∧ ts = t :: rest := by
  rw [(take_spec kind ts.length).2 eof ts heof (Nat.le_refl _), firstToken_iff]
  simp only [hkind, ne_eq, not_false_eq_true, and_true, Option.ite_none_right_eq_some,
    Option.some.injEq]
  grind

theorem on_symbol_iff (heof : eof.kind = .eof) {text : String} {u : Unit} :
    (symbol text).on eof ts = some (u, rest) ↔ ∃ t, IsSymbol text t ∧ ts = t :: rest := by
  rw [(symbol_spec text ts.length).2 eof ts heof (Nat.le_refl _), firstToken_iff]
  simp [IsSymbol]

theorem on_keyword_iff (heof : eof.kind = .eof) {ms : List Mnemonic} {m : Mnemonic} :
    (keyword ms).on eof ts = some (m, rest) ↔
      ∃ t, (t.kind = .mnemonic ∧ ms.find? (fun m => t.id = m.index) = some m) ∧ ts = t :: rest := by
  rw [(keyword_spec ms ts.length).2 eof ts heof (Nat.le_refl _), firstToken_iff]
  simp

theorem on_optional_iff {p : Production α} [Uniform p] (heof : eof.kind = .eof) {o : Option α} :
    (optional p).on eof ts = some (o, rest) ↔
      (∃ a, o = some a ∧ p.on eof ts = some (a, rest)) ∨
        (o = none ∧ p.on eof ts = none ∧ rest = ts) := by
  rw [(optional_spec (Uniform.regular ts.length)).2 eof ts heof (Nat.le_refl _)]
  cases p.on eof ts with
  | none => simp [eq_comm]
  | some r =>
    obtain ⟨a, mid⟩ := r
    simp only [Option.map_some, Option.getD_some, Option.some.injEq, Prod.mk.injEq]
    grind

theorem on_symbol_eq_none_iff (heof : eof.kind = .eof) {text : String} :
    (symbol text).on eof ts = none ↔ ∀ t ts', ts = t :: ts' → ¬ IsSymbol text t := by
  rw [Option.eq_none_iff_forall_ne_some]
  constructor
  · rintro h t ts' rfl ht
    exact h ((), ts') ((on_symbol_iff heof).mpr ⟨t, ht, rfl⟩)
  · rintro h ⟨u, mid⟩ hsome
    obtain ⟨t, ht, rfl⟩ := (on_symbol_iff heof).mp hsome
    exact h t mid rfl ht

/-! ## 3. Operands -/

theorem on_immediate_iff (heof : eof.kind = .eof) {o : Operand} :
    immediate.on eof ts = some (o, rest) ↔
      ∃ t, t.kind = .number ∧ o = ⟨.immediate t.value, t.pos⟩ ∧ ts = t :: rest := by
  unfold immediate
  simp only [on_bind_iff heof, on_take_iff heof (show TokenKind.number ≠ .eof by decide),
    on_pure_iff heof]
  grind

theorem on_register_iff (heof : eof.kind = .eof) {o : Operand} :
    register.on eof ts = some (o, rest) ↔
      ∃ t, t.kind = .register ∧ o = ⟨.register (.ofInt t.id), t.pos⟩ ∧ ts = t :: rest := by
  unfold register
  simp only [on_bind_iff heof, on_take_iff heof (show TokenKind.register ≠ .eof by decide),
    on_pure_iff heof]
  grind

theorem on_labelName_iff (heof : eof.kind = .eof) {label : String} :
    labelName.on eof ts = some (label, rest) ↔ ∃ used, Name used label ∧ ts = used ++ rest := by
  unfold labelName
  simp only [on_bind_iff heof, on_take_iff heof (show TokenKind.identifier ≠ .eof by decide),
    on_pure_iff heof, on_optional_iff heof, on_symbol_iff heof, on_symbol_eq_none_iff heof]
  constructor
  · rintro ⟨dot, mid, ⟨u, rfl, d, hd, rfl⟩ | ⟨rfl, -, rfl⟩, t, mid', ⟨ht, rfl⟩, rfl, rfl⟩
    · exact ⟨[d, t], .dotted hd ht, rfl⟩
    · exact ⟨[t], .plain ht, rfl⟩
  · rintro ⟨used, hname, rfl⟩
    cases hname with
    | @plain t ht =>
      refine ⟨none, t :: rest, .inr ⟨rfl, ?_, rfl⟩, t, rest, ⟨ht, rfl⟩, rfl, rfl⟩
      rintro t' ts' ⟨⟩ hdot
      rw [hdot.1] at ht
      cases ht
    | @dotted d t hd ht =>
      exact ⟨some (), t :: rest, .inl ⟨(), rfl, d, hd, rfl⟩, t, rest, ⟨ht, rfl⟩, rfl, rfl⟩

theorem on_name_iff (heof : eof.kind = .eof) {o : Operand} :
    name.on eof ts = some (o, rest) ↔
      ∃ t used label, Name (t :: used) label ∧ o = ⟨.name label, t.pos⟩ ∧
        ts = t :: (used ++ rest) := by
  unfold name
  simp only [on_bind_iff heof, on_place_iff heof, on_labelName_iff heof, on_pure_iff heof]
  constructor
  · rintro ⟨pos, mid, ⟨rfl, rfl⟩, label, mid', ⟨used, hname, rfl⟩, rfl, rfl⟩
    cases hname with
    | @plain t ht => exact ⟨t, [], t.text, .plain ht, rfl, rfl⟩
    | @dotted d t hd ht => exact ⟨d, [t], "." ++ t.text, .dotted hd ht, rfl, rfl⟩
  · rintro ⟨t, used, label, hname, rfl, rfl⟩
    exact ⟨t.pos, _, ⟨rfl, rfl⟩, label, rest, ⟨t :: used, hname, rfl⟩, rfl, rfl⟩

theorem on_parenthesized_iff {p : Production OperandForm} [Uniform p] (heof : eof.kind = .eof)
    {o : Operand} :
    (parenthesized p).on eof ts = some (o, rest) ↔
      ∃ l r form inner, IsSymbol "(" l ∧ p.on eof inner = some (form, r :: rest) ∧
        IsSymbol ")" r ∧ o = ⟨form, l.pos⟩ ∧ ts = l :: inner := by
  unfold parenthesized
  simp only [on_bind_iff heof, on_place_iff heof, on_symbol_iff heof, on_pure_iff heof]
  constructor
  · rintro ⟨pos, mid, ⟨rfl, rfl⟩, _, inner, ⟨l, hl, rfl⟩, form, mid', hp', _, mid'',
      ⟨r, hr, rfl⟩, rfl, rfl⟩
    exact ⟨l, r, form, inner, hl, hp', hr, rfl, rfl⟩
  · rintro ⟨l, r, form, inner, hl, hp', hr, rfl, rfl⟩
    exact ⟨l.pos, l :: inner, ⟨rfl, rfl⟩, (), inner, ⟨l, hl, rfl⟩, form, r :: rest, hp', (), rest,
      ⟨r, hr, rfl⟩, rfl, rfl⟩

theorem on_indirectName_iff (heof : eof.kind = .eof) {o : Operand} :
    indirectName.on eof ts = some (o, rest) ↔
      ∃ l r used label, IsSymbol "(" l ∧ Name used label ∧ IsSymbol ")" r ∧
        o = ⟨.indirectName label, l.pos⟩ ∧ ts = l :: (used ++ r :: rest) := by
  unfold indirectName
  simp only [on_parenthesized_iff heof, on_bind_iff heof, on_labelName_iff heof, on_pure_iff heof]
  constructor
  · rintro ⟨l, r, form, inner, hl, ⟨label, mid, ⟨used, hname, rfl⟩, rfl, rfl⟩, hr, rfl, rfl⟩
    exact ⟨l, r, used, label, hl, hname, hr, rfl, rfl⟩
  · rintro ⟨l, r, used, label, hl, hname, hr, rfl, rfl⟩
    exact ⟨l, r, _, _, hl, ⟨label, _, ⟨used, hname, rfl⟩, rfl, rfl⟩, hr, rfl, rfl⟩

theorem on_indirectRegister_iff (heof : eof.kind = .eof) {o : Operand} :
    indirectRegister.on eof ts = some (o, rest) ↔
      ∃ l t r, IsSymbol "(" l ∧ t.kind = .register ∧ IsSymbol ")" r ∧
        o = ⟨.indirectRegister (.ofInt t.id), l.pos⟩ ∧ ts = l :: t :: r :: rest := by
  unfold indirectRegister
  simp only [on_parenthesized_iff heof, on_bind_iff heof, on_pure_iff heof,
    on_take_iff heof (show TokenKind.register ≠ .eof by decide)]
  grind

theorem on_indirectImmediate_iff (heof : eof.kind = .eof) {o : Operand} :
    indirectImmediate.on eof ts = some (o, rest) ↔
      ∃ l t r, IsSymbol "(" l ∧ t.kind = .number ∧ IsSymbol ")" r ∧
        o = ⟨.indirectImmediate t.value, l.pos⟩ ∧ ts = l :: t :: r :: rest := by
  unfold indirectImmediate
  simp only [on_parenthesized_iff heof, on_bind_iff heof, on_pure_iff heof,
    on_take_iff heof (show TokenKind.number ≠ .eof by decide)]
  grind

theorem operandRules_sound (heof : eof.kind = .eof) {r : Rule × Production Operand}
    (hr : r ∈ operandRules) {o : Operand} (h : r.2.on eof ts = some (o, rest)) :
    ∃ used, Spells used o ∧ ts = used ++ rest := by
  simp only [operandRules, List.mem_cons, List.not_mem_nil, or_false] at hr
  rcases hr with rfl | rfl | rfl | rfl | rfl | rfl
  · obtain ⟨t, ht, rfl, rfl⟩ := (on_immediate_iff heof).mp h
    exact ⟨[t], .immediate ht, rfl⟩
  · obtain ⟨t, ht, rfl, rfl⟩ := (on_register_iff heof).mp h
    exact ⟨[t], .register ht, rfl⟩
  · obtain ⟨l, c, used, label, hl, hname, hc, rfl, rfl⟩ := (on_indirectName_iff heof).mp h
    exact ⟨l :: (used ++ [c]), .indirectName hl hname hc, by simp⟩
  · obtain ⟨l, t, c, hl, ht, hc, rfl, rfl⟩ := (on_indirectRegister_iff heof).mp h
    exact ⟨[l, t, c], .indirectRegister hl ht hc, rfl⟩
  · obtain ⟨t, used, label, hname, rfl, rfl⟩ := (on_name_iff heof).mp h
    exact ⟨t :: used, .name hname, rfl⟩
  · obtain ⟨l, t, c, hl, ht, hc, rfl, rfl⟩ := (on_indirectImmediate_iff heof).mp h
    exact ⟨[l, t, c], .indirectImmediate hl ht hc, rfl⟩

theorem operandRules_complete (heof : eof.kind = .eof) {used : List Token} {o : Operand}
    (h : Spells used o) (rest : List Token) :
    ∃ r ∈ operandRules, r.2.on eof (used ++ rest) = some (o, rest) := by
  simp only [operandRules, List.exists_mem_cons_iff]
  cases h with
  | immediate ht => exact .inl ((on_immediate_iff heof).mpr ⟨_, ht, rfl, rfl⟩)
  | register ht => exact .inr (.inl ((on_register_iff heof).mpr ⟨_, ht, rfl, rfl⟩))
  | indirectName hl hname hr =>
    exact .inr (.inr (.inl ((on_indirectName_iff heof).mpr
      ⟨_, _, _, _, hl, hname, hr, rfl, by simp⟩)))
  | indirectRegister hl ht hr =>
    exact .inr (.inr (.inr (.inl ((on_indirectRegister_iff heof).mpr
      ⟨_, _, _, hl, ht, hr, rfl, rfl⟩))))
  | name hname =>
    exact .inr (.inr (.inr (.inr (.inl ((on_name_iff heof).mpr ⟨_, _, _, hname, rfl, rfl⟩)))))
  | indirectImmediate hl ht hr =>
    exact .inr (.inr (.inr (.inr (.inr (.inl ((on_indirectImmediate_iff heof).mpr
      ⟨_, _, _, hl, ht, hr, rfl, rfl⟩))))))

/-- An operand is read if and only if the tokens start with one. -/
theorem on_operand_iff (heof : eof.kind = .eof) {o : Operand} :
    operand.on eof ts = some (o, rest) ↔ ∃ used, Spells used o ∧ ts = used ++ rest := by
  rw [(operand_spec ts.length).2 eof ts heof (Nat.le_refl _)]
  constructor
  · intro h
    obtain ⟨r, hr, hon⟩ := List.exists_of_findSome?_eq_some h
    exact operandRules_sound heof hr hon
  · rintro ⟨used, hspells, rfl⟩
    obtain ⟨r, hr, hon⟩ := operandRules_complete heof hspells rest
    -- Some production succeeds; whichever is first, it reads the same operand.
    cases hfirst : operandRules.findSome? fun r => r.2.on eof (used ++ rest) with
    | none =>
      rw [List.findSome?_eq_none_iff] at hfirst
      rw [hfirst r hr] at hon
      cases hon
    | some found =>
      obtain ⟨o', rest'⟩ := found
      obtain ⟨r', hr', hon'⟩ := List.exists_of_findSome?_eq_some hfirst
      obtain ⟨used', hspells', heq⟩ := operandRules_sound heof hr' hon'
      obtain ⟨rfl, rfl⟩ := hspells.unique hspells' heq
      rfl

/-! ## 4. Statements -/

theorem on_label_iff (heof : eof.kind = .eof) {s : Statement} :
    label.on eof ts = some (s, rest) ↔
      ∃ t c, t.kind = .identifier ∧ IsSymbol ":" c ∧ s = .label t.text t.pos ∧
        ts = t :: c :: rest := by
  unfold label
  simp only [on_bind_iff heof, on_take_iff heof (show TokenKind.identifier ≠ .eof by decide),
    on_symbol_iff heof, on_pure_iff heof]
  grind

theorem on_localLabel_iff (heof : eof.kind = .eof) {s : Statement} :
    localLabel.on eof ts = some (s, rest) ↔
      ∃ d t c, IsSymbol "." d ∧ t.kind = .identifier ∧ IsSymbol ":" c ∧
        s = .localLabel ("." ++ t.text) d.pos ∧ ts = d :: t :: c :: rest := by
  unfold localLabel
  simp only [on_bind_iff heof, on_place_iff heof, on_symbol_iff heof, on_pure_iff heof,
    on_take_iff heof (show TokenKind.identifier ≠ .eof by decide)]
  constructor
  · rintro ⟨pos, mid, ⟨rfl, rfl⟩, _, mid', ⟨d, hd, rfl⟩, t, mid'', ⟨ht, rfl⟩, _, after,
      ⟨c, hc, rfl⟩, rfl, rfl⟩
    exact ⟨d, t, c, hd, ht, hc, rfl, rfl⟩
  · rintro ⟨d, t, c, hd, ht, hc, rfl, rfl⟩
    exact ⟨d.pos, _, ⟨rfl, rfl⟩, (), _, ⟨d, hd, rfl⟩, t, _, ⟨ht, rfl⟩, (), rest, ⟨c, hc, rfl⟩, rfl,
      rfl⟩

theorem find?_keyword_singleton {t : Token} {m m' : Mnemonic} :
    (t.kind = .mnemonic ∧ [m].find? (fun m => t.id = m.index) = some m') ↔
      IsKeyword m t ∧ m' = m := by
  simp only [List.find?_singleton, decide_eq_true_eq, Option.ite_none_right_eq_some,
    Option.some.injEq, IsKeyword]
  grind

theorem on_nullary_iff (heof : eof.kind = .eof) {m : Mnemonic} {s : Statement} :
    (nullary m).on eof ts = some (s, rest) ↔
      ∃ k, IsKeyword m k ∧ s = .instruction m [] k.pos ∧ ts = k :: rest := by
  unfold nullary
  simp only [on_bind_iff heof, on_place_iff heof, on_keyword_iff heof, on_pure_iff heof,
    find?_keyword_singleton]
  constructor
  · rintro ⟨pos, mid, ⟨rfl, rfl⟩, m', mid', ⟨k, ⟨hk, rfl⟩, rfl⟩, rfl, rfl⟩
    exact ⟨k, hk, rfl, rfl⟩
  · rintro ⟨k, hk, rfl, rfl⟩
    exact ⟨k.pos, _, ⟨rfl, rfl⟩, m, rest, ⟨k, ⟨hk, rfl⟩, rfl⟩, rfl, rfl⟩

theorem on_unary_iff (heof : eof.kind = .eof) {m : Mnemonic} {s : Statement} :
    (unary m).on eof ts = some (s, rest) ↔
      ∃ k used a, IsKeyword m k ∧ Spells used a ∧ s = .instruction m [a] k.pos ∧
        ts = k :: (used ++ rest) := by
  unfold unary
  simp only [on_bind_iff heof, on_place_iff heof, on_keyword_iff heof, on_pure_iff heof,
    find?_keyword_singleton, on_operand_iff heof]
  constructor
  · rintro ⟨pos, mid, ⟨rfl, rfl⟩, m', mid', ⟨k, ⟨hk, rfl⟩, rfl⟩, a, after, ⟨used, ha, rfl⟩, rfl,
      rfl⟩
    exact ⟨k, used, a, hk, ha, rfl, rfl⟩
  · rintro ⟨k, used, a, hk, ha, rfl, rfl⟩
    exact ⟨k.pos, _, ⟨rfl, rfl⟩, m, _, ⟨k, ⟨hk, rfl⟩, rfl⟩, a, rest, ⟨used, ha, rfl⟩, rfl, rfl⟩

theorem on_binary_iff (heof : eof.kind = .eof) {ms : List Mnemonic} {s : Statement} :
    (binary ms).on eof ts = some (s, rest) ↔
      ∃ k m used a c used' b,
        (k.kind = .mnemonic ∧ ms.find? (fun m => k.id = m.index) = some m) ∧ Spells used a ∧
        IsSymbol "," c ∧ Spells used' b ∧ s = .instruction m [a, b] k.pos ∧
        ts = k :: (used ++ c :: (used' ++ rest)) := by
  unfold binary
  simp only [on_bind_iff heof, on_place_iff heof, on_keyword_iff heof, on_pure_iff heof,
    on_symbol_iff heof, on_operand_iff heof]
  constructor
  · rintro ⟨pos, mid, ⟨rfl, rfl⟩, m, mid', ⟨k, hk, rfl⟩, a, after, ⟨used, ha, rfl⟩, _, after',
      ⟨c, hc, rfl⟩, b, last, ⟨used', hb, rfl⟩, rfl, rfl⟩
    exact ⟨k, m, used, a, c, used', b, hk, ha, hc, hb, rfl, rfl⟩
  · rintro ⟨k, m, used, a, c, used', b, hk, ha, hc, hb, rfl, rfl⟩
    exact ⟨k.pos, _, ⟨rfl, rfl⟩, m, _, ⟨k, hk, rfl⟩, a, _, ⟨used, ha, rfl⟩, (), _, ⟨c, hc, rfl⟩, b,
      rest, ⟨used', hb, rfl⟩, rfl, rfl⟩

theorem on_secondOperand_iff (heof : eof.kind = .eof) {b : Operand} :
    secondOperand.on eof ts = some (b, rest) ↔
      ∃ c used, IsSymbol "," c ∧ Spells used b ∧ ts = c :: (used ++ rest) := by
  unfold secondOperand
  simp only [on_bind_iff heof, on_symbol_iff heof, on_operand_iff heof]
  grind

/-- No comma with an operand comes first. -/
def NoSecond (rest : List Token) : Prop :=
  ∀ c used b more, IsSymbol "," c → Spells used b → rest ≠ c :: (used ++ more)

theorem on_secondOperand_eq_none_iff (heof : eof.kind = .eof) :
    secondOperand.on eof ts = none ↔ NoSecond ts := by
  rw [Option.eq_none_iff_forall_ne_some]
  constructor
  · intro h c used b more hc hb heq
    exact h (b, more) ((on_secondOperand_iff heof).mpr ⟨c, used, hc, hb, heq⟩)
  · rintro h ⟨b, more⟩ hsome
    obtain ⟨c, used, hc, hb, heq⟩ := (on_secondOperand_iff heof).mp hsome
    exact h c used b more hc hb heq

/-- An exclusive or has a second operand if a comma and an operand follow. -/
theorem on_xor_iff (heof : eof.kind = .eof) {s : Statement} :
    xor.on eof ts = some (s, rest) ↔
      ∃ k used a mid, IsKeyword (.op .xor) k ∧ Spells used a ∧ ts = k :: (used ++ mid) ∧
        ((∃ c used' b, IsSymbol "," c ∧ Spells used' b ∧
            s = .instruction (.op .xor) [a, b] k.pos ∧ mid = c :: (used' ++ rest)) ∨
          (NoSecond mid ∧ s = .instruction (.op .xor) [a] k.pos ∧ rest = mid)) := by
  unfold xor
  simp only [on_bind_iff heof, on_place_iff heof, on_keyword_iff heof, on_pure_iff heof,
    find?_keyword_singleton, on_operand_iff heof, on_optional_iff heof, on_secondOperand_iff heof,
    on_secondOperand_eq_none_iff heof]
  constructor
  · rintro ⟨pos, mid, ⟨rfl, rfl⟩, m, mid', ⟨k, ⟨hk, rfl⟩, rfl⟩, a, after, ⟨used, ha, rfl⟩, o, last,
      ⟨b, rfl, c, used', hc, hb, rfl⟩ | ⟨rfl, hnone, rfl⟩, rfl, rfl⟩
    · exact ⟨k, used, a, _, hk, ha, rfl, .inl ⟨c, used', b, hc, hb, rfl, rfl⟩⟩
    · exact ⟨k, used, a, _, hk, ha, rfl, .inr ⟨hnone, rfl, rfl⟩⟩
  · rintro ⟨k, used, a, mid, hk, ha, rfl, ⟨c, used', b, hc, hb, rfl, rfl⟩ | ⟨hnone, rfl, rfl⟩⟩
    · exact ⟨k.pos, _, ⟨rfl, rfl⟩, _, _, ⟨k, ⟨hk, rfl⟩, rfl⟩, a, _, ⟨used, ha, rfl⟩, some b, rest,
        .inl ⟨b, rfl, c, used', hc, hb, rfl⟩, rfl, rfl⟩
    · exact ⟨k.pos, _, ⟨rfl, rfl⟩, _, _, ⟨k, ⟨hk, rfl⟩, rfl⟩, a, _, ⟨used, ha, rfl⟩, none, _,
        .inr ⟨rfl, hnone, rfl⟩, rfl, rfl⟩

/-- No comma comes first. -/
def NoComma (rest : List Token) : Prop := ∀ t ts, rest = t :: ts → ¬ IsSymbol "," t

theorem dataItems_sound (heof : eof.kind = .eof) {n : Nat} {items : List Operand}
    (h : (dataItems n).on eof ts = some (items, rest)) :
    ∃ used, Items used items ∧ NoComma rest ∧ ts = used ++ rest := by
  induction n generalizing ts items with
  | zero =>
    rw [dataItems, (fail_spec ts.length).2 eof ts heof (Nat.le_refl _)] at h
    cases h
  | succ n ih =>
    rw [on_dataItems_succ n heof] at h
    obtain ⟨⟨item, ts'⟩, hitem, hmore⟩ := Option.bind_eq_some_iff.mp h
    obtain ⟨t, ht, rfl⟩ := firstToken_iff.mp hitem
    cases hcomma : (symbol ",").on eof ts' with
    | none =>
      simp only [hcomma] at hmore
      cases hmore
      exact ⟨[t], .last ht, (on_symbol_eq_none_iff heof).mp hcomma, rfl⟩
    | some r =>
      obtain ⟨u, ts''⟩ := r
      simp only [hcomma] at hmore
      obtain ⟨⟨items', rest'⟩, hitems, heq⟩ := Option.map_eq_some_iff.mp hmore
      cases heq
      obtain ⟨c, hc, rfl⟩ := (on_symbol_iff heof).mp hcomma
      obtain ⟨used, hused, hend, rfl⟩ := ih hitems
      exact ⟨t :: c :: used, .more ht hc hused, hend, rfl⟩

theorem dataItems_complete (heof : eof.kind = .eof) {used : List Token} {items : List Operand}
    (h : Items used items) (hrest : NoComma rest) {n : Nat} (hn : used.length ≤ n) :
    (dataItems n).on eof (used ++ rest) = some (items, rest) := by
  induction h generalizing n with
  | last ht =>
    cases n with
    | zero => simp at hn
    | succ n =>
      rw [on_dataItems_succ n heof, List.singleton_append, firstToken, ht]
      simp only [Option.map_some, Option.bind_some, (on_symbol_eq_none_iff heof).mpr hrest]
  | @more t c ts o os ht hc _ ih =>
    cases n with
    | zero => simp at hn
    | succ n =>
      have hcomma : (symbol ",").on eof (c :: (ts ++ rest)) = some ((), ts ++ rest) :=
        (on_symbol_iff heof).mpr ⟨c, hc, rfl⟩
      have htail : (dataItems n).on eof (ts ++ rest) = some (os, rest) :=
        ih (by simp only [List.length_cons] at hn; omega)
      rw [on_dataItems_succ n heof, List.cons_append, List.cons_append, firstToken, ht]
      simp only [Option.map_some, Option.bind_some, hcomma, htail]

/-- What follows a statement does not make it longer: no comma follows the last
item of a data directive, and no comma with an operand the only operand of an
exclusive or. -/
def Ends (rest : List Token) : Statement → Prop
  | .data _ _ => NoComma rest
  | .instruction m [_] _ => m = .op .xor → NoSecond rest
  | .times _ s _ => Ends rest s
  | _ => True

theorem NoComma.ends (h : NoComma rest) (s : Statement) : Ends rest s := by
  induction s with
  | data items pos => exact h
  | times count s pos ih => exact ih
  | instruction m operands pos =>
    cases operands with
    | nil => trivial
    | cons a operands =>
      cases operands with
      | nil =>
        intro _ c used b more hc _ heq
        exact h c (used ++ more) heq hc
      | cons b operands => trivial
  | _ => trivial

/-- The keywords that a production can start with. -/
def keywordsOf : Rule → List Mnemonic
  | .move => [.op .mov, .sizedMove .word, .sizedMove .dword, .sizedMove .qword]
  | .nullary op | .unary op | .binary op => [.op op]
  | .xor => [.op .xor]
  | .data => [.db]
  | .times => [.times]
  | _ => []

/-- Whether a production can start with a token. -/
def Starts (rule : Rule) (t : Token) : Prop :=
  (rule = .label ∧ t.kind = .identifier) ∨ (rule = .localLabel ∧ t.kind = .symbol) ∨
    (∃ m ∈ keywordsOf rule, IsKeyword m t)

/-- The productions differ in what they start with. -/
theorem Starts.unique {rule rule' : Rule} {t : Token} (h : Starts rule t) (h' : Starts rule' t)
    (hmem : rule ∈ statementOrder) (hmem' : rule' ∈ statementOrder) : rule = rule' := by
  have hindex : ∀ r ∈ statementOrder, ∀ r' ∈ statementOrder, ∀ m ∈ keywordsOf r,
      ∀ m' ∈ keywordsOf r', m.index = m'.index → r = r' := by decide +kernel
  rcases h with ⟨rfl, ht⟩ | ⟨rfl, ht⟩ | ⟨m, hm, ht⟩ <;>
    rcases h' with ⟨rfl, ht'⟩ | ⟨rfl, ht'⟩ | ⟨m', hm', ht'⟩
  case inr.inr.inr.inr =>
    exact hindex rule hmem rule' hmem' m hm m' hm' (ht.2.symm.trans ht'.2)
  all_goals simp_all [IsKeyword]

/-- The numbers of operands that the productions read are those of the
grammar. -/
theorem arities_of_mem_statementOrder {op : Opcode} :
    (.nullary op ∈ statementOrder ↔ 0 ∈ arities (.op op)) ∧
    (.unary op ∈ statementOrder ↔ 1 ∈ arities (.op op) ∧ op ≠ .xor) ∧
    (.binary op ∈ statementOrder ↔ 2 ∈ arities (.op op) ∧ op ≠ .xor ∧ op ≠ .mov) := by
  cases op <;> decide +kernel

/-- What a production reads is spelled by the tokens it was read from and ends
with them, if that is so of the bodies of repetitions. -/
theorem statementOf_sound (heof : eof.kind = .eof) {n : Nat}
    (hbody : ∀ {ts rest : List Token} {s : Statement}, ts.length ≤ n →
      (statement n).on eof ts = some (s, rest) →
        ∃ used, Stmt used s ∧ Ends rest s ∧ ts = used ++ rest)
    {rule : Rule} (hrule : rule ∈ statementOrder) (hts : ts.length ≤ n + 1) {s : Statement}
    (h : (statementOf n (statement n) rule).on eof ts = some (s, rest)) :
    ∃ t used, Starts rule t ∧ Stmt (t :: used) s ∧ Ends rest s ∧ ts = t :: (used ++ rest) := by
  have harity := fun op => @arities_of_mem_statementOrder op
  cases rule with
  | label =>
    obtain ⟨t, c, ht, hc, rfl, rfl⟩ := (on_label_iff heof).mp h
    exact ⟨t, [c], .inl ⟨rfl, ht⟩, .label ht hc, trivial, rfl⟩
  | localLabel =>
    obtain ⟨d, t, c, hd, ht, hc, rfl, rfl⟩ := (on_localLabel_iff heof).mp h
    exact ⟨d, [t, c], .inr (.inl ⟨rfl, hd.1⟩), .localLabel hd ht hc, trivial, rfl⟩
  | nullary op =>
    obtain ⟨k, hk, rfl, rfl⟩ := (on_nullary_iff heof).mp h
    exact ⟨k, [], .inr (.inr ⟨_, List.mem_singleton_self _, hk⟩),
      .nullary hk ((harity op).1.mp hrule), trivial, rfl⟩
  | unary op =>
    obtain ⟨k, used, a, hk, ha, rfl, rfl⟩ := (on_unary_iff heof).mp h
    obtain ⟨hone, hxor⟩ := (harity op).2.1.mp hrule
    exact ⟨k, used, .inr (.inr ⟨_, List.mem_singleton_self _, hk⟩), .unary hk hone ha,
      fun heq => absurd (Mnemonic.op.inj heq) hxor, rfl⟩
  | binary op =>
    obtain ⟨k, m, used, a, c, used', b, hfind, ha, hc, hb, rfl, rfl⟩ := (on_binary_iff heof).mp h
    obtain ⟨hk, rfl⟩ := find?_keyword_singleton.mp hfind
    exact ⟨k, used ++ c :: used', .inr (.inr ⟨_, List.mem_singleton_self _, hk⟩),
      .binary hk ((harity op).2.2.mp hrule).1 ha hc hb, trivial, by simp⟩
  | move =>
    obtain ⟨k, m, used, a, c, used', b, ⟨hkind, hfind⟩, ha, hc, hb, rfl, rfl⟩ :=
      (on_binary_iff heof).mp h
    have hm := List.mem_of_find?_eq_some hfind
    have hk : IsKeyword m k := ⟨hkind, by simpa using List.find?_some hfind⟩
    have htwo : ∀ m ∈ keywordsOf .move, 2 ∈ arities m := by decide
    exact ⟨k, used ++ c :: used', .inr (.inr ⟨m, hm, hk⟩), .binary hk (htwo m hm) ha hc hb,
      trivial, by simp⟩
  | xor =>
    obtain ⟨k, used, a, mid, hk, ha, rfl, ⟨c, used', b, hc, hb, rfl, rfl⟩ | ⟨hno, rfl, rfl⟩⟩ :=
      (on_xor_iff heof).mp h
    · exact ⟨k, used ++ c :: used', .inr (.inr ⟨_, List.mem_singleton_self _, hk⟩),
        .binary hk (by decide) ha hc hb, trivial, by simp⟩
    · exact ⟨k, used, .inr (.inr ⟨_, List.mem_singleton_self _, hk⟩), .unary hk (by decide) ha,
        fun _ => hno, rfl⟩
  | data =>
    simp only [statementOf, on_data n heof] at h
    obtain ⟨⟨m, ts'⟩, hkw, h'⟩ := Option.bind_eq_some_iff.mp h
    obtain ⟨k, hfind, rfl⟩ := (on_keyword_iff heof).mp hkw
    obtain ⟨hk, rfl⟩ := find?_keyword_singleton.mp hfind
    obtain ⟨⟨items, rest'⟩, hitems, heq⟩ := Option.map_eq_some_iff.mp h'
    cases heq
    obtain ⟨used, hused, hend, rfl⟩ := dataItems_sound heof hitems
    exact ⟨k, used, .inr (.inr ⟨_, List.mem_singleton_self _, hk⟩), .data hk hused, hend, rfl⟩
  | times =>
    simp only [statementOf, (times_spec (regular_statement n)).2 eof ts heof hts] at h
    obtain ⟨⟨m, ts'⟩, hkw, h'⟩ := Option.bind_eq_some_iff.mp h
    obtain ⟨k, hfind, rfl⟩ := (on_keyword_iff heof).mp hkw
    obtain ⟨hk, rfl⟩ := find?_keyword_singleton.mp hfind
    obtain ⟨⟨count, ts''⟩, hcount, h''⟩ := Option.bind_eq_some_iff.mp h'
    obtain ⟨hnum, rfl⟩ := (on_take_iff heof (by decide)).mp hcount
    obtain ⟨⟨s', rest'⟩, hs, heq⟩ := Option.map_eq_some_iff.mp h''
    cases heq
    have hlen : ts''.length ≤ n := by
      simp only [List.length_cons] at hts
      omega
    obtain ⟨used, hused, hend, rfl⟩ := hbody hlen hs
    exact ⟨k, count :: used, .inr (.inr ⟨_, List.mem_singleton_self _, hk⟩),
      .times hk hnum hused, hend, rfl⟩
  | _ => simp [statementOrder] at hrule

/-- A statement that is read is spelled by the tokens it was read from, and ends
with them. -/
theorem statement_sound (heof : eof.kind = .eof) {n : Nat} {s : Statement} (hts : ts.length ≤ n)
    (h : (statement n).on eof ts = some (s, rest)) :
    ∃ used, Stmt used s ∧ Ends rest s ∧ ts = used ++ rest := by
  induction n generalizing ts rest s with
  | zero =>
    rw [statement, (fail_spec 0).2 eof ts heof hts] at h
    cases h
  | succ n ih =>
    rw [on_statement_succ n heof hts] at h
    obtain ⟨rule, hrule, hon⟩ := List.exists_of_findSome?_eq_some h
    obtain ⟨t, used, -, hused, hend, rfl⟩ := statementOf_sound heof ih hrule hts hon
    exact ⟨t :: used, hused, hend, rfl⟩

theorem le_two_of_mem_arities {m : Mnemonic} {n : Nat} (h : n ∈ arities m) : n ≤ 2 := by
  unfold arities at h
  split at h <;> simp at h <;> omega

theorem exists_rule_of_arity {m : Mnemonic} {n : Nat} (h : n ∈ arities m) :
    (n = 0 ∧ ∃ op, m = .op op ∧ .nullary op ∈ statementOrder) ∨
    (n = 1 ∧ ((∃ op, m = .op op ∧ .unary op ∈ statementOrder) ∨ m = .op .xor)) ∨
    (n = 2 ∧ ((∃ op, m = .op op ∧ .binary op ∈ statementOrder) ∨ m = .op .xor ∨
      m ∈ keywordsOf .move)) := by
  have hle := le_two_of_mem_arities h
  cases m with
  | op op =>
    obtain ⟨hnullary, hunary, hbinary⟩ := @arities_of_mem_statementOrder op
    by_cases hxor : op = .xor
    · subst hxor
      simp only [arities, List.mem_cons, List.not_mem_nil, or_false] at h
      rcases h with rfl | rfl
      · exact .inr (.inl ⟨rfl, .inr rfl⟩)
      · exact .inr (.inr ⟨rfl, .inr (.inl rfl)⟩)
    · obtain rfl | rfl | rfl : n = 0 ∨ n = 1 ∨ n = 2 := by omega
      · exact .inl ⟨rfl, op, rfl, hnullary.mpr h⟩
      · exact .inr (.inl ⟨rfl, .inl ⟨op, rfl, hunary.mpr ⟨h, hxor⟩⟩⟩)
      · by_cases hmov : op = .mov
        · subst hmov
          exact .inr (.inr ⟨rfl, .inr (.inr (by decide))⟩)
        · exact .inr (.inr ⟨rfl, .inl ⟨op, rfl, hbinary.mpr ⟨h, hxor, hmov⟩⟩⟩)
  | sizedMove size => cases size <;> simp_all [arities, keywordsOf]
  | _ => simp [arities] at h

/-- A spelled statement is read by one of the productions, unless what follows
makes it longer. -/
theorem statementOf_complete (heof : eof.kind = .eof) {n : Nat}
    (hbody : ∀ {used : List Token} {s : Statement}, Stmt used s → Ends rest s →
      (used ++ rest).length ≤ n → (statement n).on eof (used ++ rest) = some (s, rest))
    {used : List Token} {s : Statement} (h : Stmt used s) (hend : Ends rest s)
    (hlen : (used ++ rest).length ≤ n + 1) :
    ∃ rule ∈ statementOrder,
      (statementOf n (statement n) rule).on eof (used ++ rest) = some (s, rest) := by
  cases h with
  | label ht hc =>
    exact ⟨.label, by decide, (on_label_iff heof).mpr ⟨_, _, ht, hc, rfl, rfl⟩⟩
  | localLabel hd ht hc =>
    exact ⟨.localLabel, by decide, (on_localLabel_iff heof).mpr ⟨_, _, _, hd, ht, hc, rfl, rfl⟩⟩
  | nullary hk hm =>
    obtain ⟨-, op, rfl, hrule⟩ | ⟨h, -⟩ | ⟨h, -⟩ := exists_rule_of_arity hm
    · exact ⟨.nullary op, hrule, (on_nullary_iff heof).mpr ⟨_, hk, rfl, rfl⟩⟩
    all_goals cases h
  | unary hk hm ha =>
    obtain ⟨h, -⟩ | ⟨-, ⟨op, rfl, hrule⟩ | rfl⟩ | ⟨h, -⟩ := exists_rule_of_arity hm
    case inr.inl.inl =>
      exact ⟨.unary op, hrule, (on_unary_iff heof).mpr ⟨_, _, _, hk, ha, rfl, rfl⟩⟩
    case inr.inl.inr =>
      exact ⟨.xor, by decide, (on_xor_iff heof).mpr
        ⟨_, _, _, rest, hk, ha, rfl, .inr ⟨hend rfl, rfl, rfl⟩⟩⟩
    all_goals cases h
  | @binary k c m ts ts' a b hk hm ha hc hb =>
    have hsplit : k :: (ts ++ c :: ts') ++ rest = k :: (ts ++ c :: (ts' ++ rest)) := by simp
    rw [hsplit]
    obtain ⟨h, -⟩ | ⟨h, -⟩ | ⟨-, ⟨op, rfl, hrule⟩ | rfl | hmove⟩ := exists_rule_of_arity hm
    case inr.inr.inl =>
      exact ⟨.binary op, hrule, (on_binary_iff heof).mpr
        ⟨k, _, ts, a, c, ts', b, find?_keyword_singleton.mpr ⟨hk, rfl⟩, ha, hc, hb, rfl, rfl⟩⟩
    case inr.inr.inr.inl =>
      exact ⟨.xor, by decide, (on_xor_iff heof).mpr
        ⟨k, ts, a, _, hk, ha, rfl, .inl ⟨c, ts', b, hc, hb, rfl, rfl⟩⟩⟩
    case inr.inr.inr.inr =>
      have hfind : ∀ m ∈ keywordsOf .move,
          (keywordsOf .move).find? (fun m' => m.index = m'.index) = some m := by decide
      refine ⟨.move, by decide, (on_binary_iff heof).mpr
        ⟨k, m, ts, a, c, ts', b, ⟨hk.1, ?_⟩, ha, hc, hb, rfl, rfl⟩⟩
      rw [hk.2]
      exact hfind m hmove
    all_goals cases h
  | @data k ts items hk hitems =>
    refine ⟨.data, by decide, ?_⟩
    have hkw : (keyword [.db]).on eof (k :: (ts ++ rest)) = some (.db, ts ++ rest) :=
      (on_keyword_iff heof).mpr ⟨k, find?_keyword_singleton.mpr ⟨hk, rfl⟩, rfl⟩
    have hlen' : ts.length ≤ n := by
      simp only [List.length_append, List.length_cons] at hlen
      omega
    simp only [statementOf, on_data n heof, List.cons_append, hkw, Option.bind_some,
      dataItems_complete heof hitems hend hlen', Option.map_some, List.headD_cons]
  | @times k c ts s hk hc hs =>
    refine ⟨.times, by decide, ?_⟩
    have hkw : (keyword [.times]).on eof (k :: c :: (ts ++ rest)) =
        some (.times, c :: (ts ++ rest)) :=
      (on_keyword_iff heof).mpr ⟨k, find?_keyword_singleton.mpr ⟨hk, rfl⟩, rfl⟩
    have hcount : (take .number).on eof (c :: (ts ++ rest)) = some (c, ts ++ rest) :=
      (on_take_iff heof (by decide)).mpr ⟨hc, rfl⟩
    have hlen' : (ts ++ rest).length ≤ n := by
      simp only [List.length_append, List.length_cons] at hlen ⊢
      omega
    simp only [statementOf, (times_spec (regular_statement n)).2 eof _ heof hlen]
    simp only [List.cons_append, hkw, Option.bind_some, hcount, hbody hs hend hlen',
      Option.map_some, List.headD_cons]

/-- A statement is read if and only if the tokens start with a spelling of it
that what follows does not make longer. -/
theorem on_statement_iff (heof : eof.kind = .eof) {n : Nat} {s : Statement}
    (hts : ts.length ≤ n) : (statement n).on eof ts = some (s, rest) ↔
      ∃ used, Stmt used s ∧ Ends rest s ∧ ts = used ++ rest := by
  refine ⟨statement_sound heof hts, ?_⟩
  rintro ⟨used, h, hend, rfl⟩
  induction n generalizing used s with
  | zero =>
    have hnil : used = [] := by
      cases used with
      | nil => rfl
      | cons t ts => simp at hts
    subst hnil
    cases h
  | succ n ih =>
    rw [on_statement_succ n heof hts]
    obtain ⟨rule, hrule, hon⟩ := statementOf_complete heof (fun h hend => ih _ h hend) h hend hts
    obtain ⟨t, used', hstarts, -, -, heq⟩ := statementOf_sound heof
      (fun hts => statement_sound heof hts) hrule hts hon
    -- No other production reads a statement that starts with the same token.
    cases hfirst : statementOrder.findSome? fun rule =>
        (statementOf n (statement n) rule).on eof (used ++ rest) with
    | none =>
      rw [List.findSome?_eq_none_iff] at hfirst
      rw [hfirst rule hrule] at hon
      cases hon
    | some found =>
      obtain ⟨s', rest'⟩ := found
      obtain ⟨rule', hrule', hon'⟩ := List.exists_of_findSome?_eq_some hfirst
      obtain ⟨t', used'', hstarts', -, -, heq'⟩ := statementOf_sound heof
        (fun hts => statement_sound heof hts) hrule' hts hon'
      rw [heq, List.cons.injEq] at heq'
      obtain ⟨rfl, -⟩ := heq'
      cases hstarts.unique hstarts' hrule hrule'
      rw [hon] at hon'
      exact hon'.symm

/-- A spelled statement is read, unless a comma follows. -/
theorem statement_complete (heof : eof.kind = .eof) {used : List Token} {s : Statement}
    (h : Stmt used s) (hrest : NoComma rest) {n : Nat} (hlen : (used ++ rest).length ≤ n) :
    (statement n).on eof (used ++ rest) = some (s, rest) :=
  (on_statement_iff heof hlen).mpr ⟨used, h, hrest.ends s, rfl⟩

end Production

/-! ## 5. Programs -/

namespace Grammar

/-- A statement starts with a token that is neither a comma nor the end. -/
theorem Stmt.exists_head {used : List Token} {s : Statement} (h : Stmt used s) :
    ∃ t used', used = t :: used' ∧ t.kind ≠ .eof ∧ ¬ IsSymbol "," t := by
  cases h with
  | label ht _ => exact ⟨_, _, rfl, by simp [ht], by simp [IsSymbol, ht]⟩
  | localLabel hd _ _ => exact ⟨_, _, rfl, by simp [hd.1], by simp [IsSymbol, hd.2]⟩
  | nullary hk _ => exact ⟨_, _, rfl, by simp [hk.1], by simp [IsSymbol, hk.1]⟩
  | unary hk _ _ => exact ⟨_, _, rfl, by simp [hk.1], by simp [IsSymbol, hk.1]⟩
  | binary hk _ _ _ _ => exact ⟨_, _, rfl, by simp [hk.1], by simp [IsSymbol, hk.1]⟩
  | data hk _ => exact ⟨_, _, rfl, by simp [hk.1], by simp [IsSymbol, hk.1]⟩
  | times hk _ _ => exact ⟨_, _, rfl, by simp [hk.1], by simp [IsSymbol, hk.1]⟩

theorem Spells.kind_ne_eof {used : List Token} {o : Operand} (h : Spells used o) :
    ∀ t ∈ used, t.kind ≠ .eof := by
  cases h with
  | name hname => cases hname <;> simp_all [IsSymbol]
  | indirectName hl hname hr => cases hname <;> simp_all [IsSymbol]
  | _ => simp_all [IsSymbol]

theorem Items.kind_ne_eof {used : List Token} {os : List Operand} (h : Items used os) :
    ∀ t ∈ used, t.kind ≠ .eof := by
  have hitem : ∀ {t : Token} {o : Operand}, Production.itemOf? t = some o → t.kind ≠ .eof := by
    intro t o ht hkind
    simp [Production.itemOf?, hkind] at ht
  induction h with
  | last ht => simpa using hitem ht
  | more ht hc _ ih =>
    simp only [List.mem_cons, forall_eq_or_imp]
    exact ⟨hitem ht, by simp [hc.1], ih⟩

theorem Stmt.kind_ne_eof {used : List Token} {s : Statement} (h : Stmt used s) :
    ∀ t ∈ used, t.kind ≠ .eof := by
  induction h with
  | label ht hc => simp [ht, hc.1]
  | localLabel hd ht hc => simp [hd.1, ht, hc.1]
  | nullary hk _ => simp [hk.1]
  | unary hk _ ha => simpa [hk.1] using ha.kind_ne_eof
  | binary hk _ ha hc hb =>
    have ha' := ha.kind_ne_eof
    have hb' := hb.kind_ne_eof
    simp only [List.mem_cons, List.mem_append, forall_eq_or_imp]
    exact ⟨by simp [hk.1], fun t ht => by
      rcases ht with ht | rfl | ht
      · exact ha' t ht
      · simp [hc.1]
      · exact hb' t ht⟩
  | data hk hitems => simpa [hk.1] using hitems.kind_ne_eof
  | times hk hn _ ih => simpa [hk.1, hn] using ih

theorem Program.kind_ne_eof {used : List Token} {ss : List Statement} (h : Program used ss) :
    ∀ t ∈ used, t.kind ≠ .eof := by
  induction h with
  | nil => simp
  | cons hs _ ih =>
    intro t ht
    rcases List.mem_append.mp ht with ht | ht
    · exact hs.kind_ne_eof t ht
    · exact ih t ht

/-- The end comes first, or nothing at all. -/
def AtEnd (rest : List Token) : Prop := ∀ t ts, rest = t :: ts → t.kind = .eof

/-- Behind the statements of a program there is no comma. -/
theorem Program.noComma {used rest : List Token} {ss : List Statement} (h : Program used ss)
    (hrest : AtEnd rest) : Production.NoComma (used ++ rest) := by
  intro t ts heq hcomma
  cases h with
  | nil =>
    have hkind := hrest t ts heq
    rw [hcomma.1] at hkind
    cases hkind
  | cons hs _ =>
    obtain ⟨t', used', rfl, -, hno⟩ := hs.exists_head
    simp only [List.cons_append, List.cons.injEq] at heq
    exact hno (heq.1 ▸ hcomma)

end Grammar

namespace Parser

open Grammar Production

/-- Reading statements up to the end gives those that the tokens spell. -/
theorem statements_eq_ok_iff {base : TokenStream} (heof : base.eof.kind = .eof) {bound n : Nat}
    {ts : List Token} {memo : Memo} (hmemo : memo.Faithful base) (hts : ts <:+ base.rest)
    (hbound : ts.length ≤ bound) (hn : ts.length < n) {acc out : Array Statement} :
    (statements bound acc n ⟨base.ahead ts, memo⟩).1 = .ok out ↔
      ∃ ss used rest, out.toList = acc.toList ++ ss ∧ Program used ss ∧ ts = used ++ rest ∧
        AtEnd rest := by
  induction n generalizing ts memo acc with
  | zero => omega
  | succ n ih =>
    have htoken : (base.ahead ts).token = ts.headD base.eof := TokenStream.token_ahead hts
    rw [statements]
    by_cases hend : AtEnd ts
    · -- Nothing is left to read, so the program has no more statements.
      have hkind : (ts.headD base.eof).kind = .eof := by
        cases ts with
        | nil => exact heof
        | cons t ts => exact hend t ts rfl
      rw [if_pos (by rw [htoken, hkind])]
      constructor
      · intro h
        cases h
        exact ⟨[], [], ts, by simp, .nil, rfl, hend⟩
      · rintro ⟨ss, used, rest, hout, hprog, rfl, hrest⟩
        cases hprog with
        | nil =>
          rw [List.append_nil] at hout
          exact congrArg Except.ok (Array.toList_inj.mp hout.symm)
        | cons hs _ =>
          obtain ⟨t, used', rfl, hne, -⟩ := hs.exists_head
          exact absurd (hend t _ rfl) hne
    · have hkind : ¬ (base.ahead ts).token.kind = .eof := by
        intro h
        refine hend fun t ts' heq => ?_
        rw [htoken, heq] at h
        exact h
      rw [if_neg hkind]
      obtain ⟨hsuffix, memo', hmemo', hrun⟩ :=
        regular_statement bound base memo ts heof hmemo hts hbound
      simp only [hrun]
      cases hon : (statement bound).on base.eof ts with
      | none =>
        refine ⟨fun h => (nomatch h), ?_⟩
        rintro ⟨ss, used, rest, -, hprog, rfl, hrest⟩
        cases hprog with
        | nil => exact absurd hrest hend
        | @cons used used' s ss hs hrest' =>
          rw [List.append_assoc] at hon hbound
          rw [statement_complete heof hs (hrest'.noComma hrest) hbound] at hon
          cases hon
      | some r =>
        obtain ⟨s, rest⟩ := r
        obtain ⟨used, hs, -, hsplit⟩ := statement_sound heof hbound hon
        have hshorter : rest.length < ts.length := by
          obtain ⟨t, used', rfl, -, -⟩ := hs.exists_head
          rw [hsplit, List.length_append, List.length_cons]
          omega
        simp only [Option.map_some]
        rw [ih hmemo'.faithful ((hsuffix s rest hon).trans hts) (by omega) (by omega)]
        constructor
        · rintro ⟨ss, used', rest', hout, hprog, rfl, hrest⟩
          refine ⟨s :: ss, used ++ used', rest', ?_, .cons hs hprog, ?_, hrest⟩
          · rw [hout, Array.toList_push, List.append_assoc, List.singleton_append]
          · rw [hsplit, List.append_assoc]
        · rintro ⟨ss, used', rest', hout, hprog, rfl, hrest⟩
          cases hprog with
          | nil => exact absurd hrest hend
          | @cons first others s' ss' hs' hrest' =>
            rw [List.append_assoc] at hon hbound
            rw [statement_complete heof hs' (hrest'.noComma hrest) hbound] at hon
            cases hon
            refine ⟨ss', others, rest', ?_, hrest', rfl, hrest⟩
            rw [hout, Array.toList_push, List.append_assoc, List.singleton_append]

theorem parse_eq_map_statements (p : Parser) :
    p.parse.1 = (statements (p.stream.rest.length + 1) #[] (p.stream.rest.length + 1) p).1.map
      Array.toList := by
  simp only [Parser.parse, TokenStream.rest]

theorem parse_eq_ok_iff {stream : TokenStream} {memo : Memo} (heof : stream.eof.kind = .eof)
    (hmemo : memo.Faithful stream) {program : List Statement} :
    (Parser.mk stream memo).parse.1 = .ok program ↔
      ∃ used rest, stream.rest = used ++ rest ∧ Program used program ∧ AtEnd rest := by
  have hiff : ∀ {out : Array Statement}, (statements (stream.rest.length + 1) #[]
      (stream.rest.length + 1) ⟨stream, memo⟩).1 = .ok out ↔ ∃ ss used rest,
        out.toList = (#[] : Array Statement).toList ++ ss ∧ Program used ss ∧
          stream.rest = used ++ rest ∧ AtEnd rest := by
    intro out
    have h := @statements_eq_ok_iff stream heof (stream.rest.length + 1) (stream.rest.length + 1)
      stream.rest memo hmemo (List.suffix_refl _) (Nat.le_succ _) (Nat.lt_succ_self _) #[] out
    rwa [stream.ahead_rest] at h
  rw [parse_eq_map_statements]
  generalize statements (stream.rest.length + 1) #[] (stream.rest.length + 1) ⟨stream, memo⟩ = run
    at hiff
  obtain ⟨result, p'⟩ := run
  constructor
  · intro h
    cases result with
    | error e => cases h
    | ok out =>
      cases h
      obtain ⟨ss, used, rest, hout, hprog, hrest, hend⟩ := hiff.mp rfl
      rw [List.nil_append] at hout
      exact ⟨used, rest, hrest, hout ▸ hprog, hend⟩
  · rintro ⟨used, rest, hrest, hprog, hend⟩
    have hok := (@hiff program.toArray).mpr ⟨program, used, rest, rfl, hprog, hrest, hend⟩
    simp only at hok
    rw [hok]
    rfl

/-- The tokens of a stream: the given ones, and an end token if they lack
one. -/
theorem ofTokens_spec (tokens : List Token) :
    (TokenStream.ofTokens tokens).eof.kind = .eof ∧
      ((TokenStream.ofTokens tokens).rest = tokens ∨
        (TokenStream.ofTokens tokens).rest = tokens ++ [(TokenStream.ofTokens tokens).eof]) := by
  unfold TokenStream.ofTokens
  cases hlast : tokens.getLast? with
  | none =>
    cases List.getLast?_eq_none_iff.mp hlast
    exact ⟨rfl, .inr rfl⟩
  | some last =>
    by_cases hkind : last.kind = .eof
    · simp only [hkind, if_true]
      exact ⟨trivial, .inl rfl⟩
    · simp only [hkind, if_false]
      exact ⟨trivial, .inr rfl⟩

/-- A list of tokens is read as the statements that the tokens before the first
end token spell, and only as those. -/
theorem parse_tokens_iff {tokens : List Token} {remembers : Bool} {program : List Statement} :
    (Parser.ofTokens tokens remembers).parse.1 = .ok program ↔
      ∃ used rest, tokens = used ++ rest ∧ Program used program ∧ AtEnd rest := by
  obtain ⟨heof, hrest⟩ := ofTokens_spec tokens
  refine (parse_eq_ok_iff heof (Memo.faithful_empty remembers _)).trans ?_
  rcases hrest with hrest | hrest
  · rw [hrest]
  · -- The added end token is never part of a program.
    rw [hrest]
    generalize (TokenStream.ofTokens tokens).eof = e at heof
    constructor
    · rintro ⟨used, rest, heq, hprog, hend⟩
      obtain ⟨more, rfl, hmore⟩ | ⟨more, rfl, rfl⟩ := List.append_eq_append_iff.mp heq
      · cases more with
        | nil => exact ⟨tokens, [], by simp, by simpa using hprog, by simp [AtEnd]⟩
        | cons t ts =>
          simp only [List.cons_append, List.cons.injEq] at hmore
          exact absurd heof (hprog.kind_ne_eof e (by simp [hmore.1]))
      · refine ⟨used, more, rfl, hprog, fun t ts heq => hend t (ts ++ [e]) ?_⟩
        rw [heq, List.cons_append]
    · rintro ⟨used, rest, rfl, hprog, hend⟩
      refine ⟨used, rest ++ [e], by rw [List.append_assoc], hprog, fun t ts heq => ?_⟩
      cases rest with
      | nil => simp only [List.nil_append, List.cons.injEq] at heq; exact heq.1 ▸ heof
      | cons t' ts' =>
        simp only [List.cons_append, List.cons.injEq] at heq
        exact heq.1 ▸ hend t' ts' rfl

end Parser

end RegAsm
