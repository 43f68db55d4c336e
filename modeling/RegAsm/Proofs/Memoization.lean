/-
RegAsm.Proofs.Memoization — what a production reads does not depend on what is
remembered.

`Production.on` is what a production reads of a list of tokens if nothing is
ever remembered.  A production is *regular* if it reads the same wherever the
tokens stand in a stream and whatever is remembered, as long as everything
remembered was really read.  Regular productions compose, so every production
of the grammar is regular (`regular_statement`), and what it reads can be
computed part by part with the equations of `on`.

1. Streams and the tokens ahead.
2. What a production reads.
3. Regular productions.
4. The primitive productions.
5. Operands and statements.
-/
import Mathlib
import RegAsm.Program.Parser
import RegAsm.Proofs.Cursor

namespace RegAsm

open Machine
open Source (Cursor Position)

/-! ## 1. Streams -/

namespace TokenStream

/-- The tokens ahead. -/
def rest (s : TokenStream) : List Token := s.cursor.rest

/-- The stream moved on to where some of its tokens are ahead. -/
def ahead (base : TokenStream) (ts : List Token) : TokenStream :=
  base.advance (base.rest.length - ts.length)

/-- A stream of the given tokens and end token. -/
def ofRest (eof : Token) (ts : List Token) : TokenStream := ⟨.ofList ts fun _ => false, eof⟩

variable {base : TokenStream} {ts rest : List Token}

@[simp]
theorem eof_ahead : (base.ahead ts).eof = base.eof := rfl

theorem ahead_rest (base : TokenStream) : base.ahead base.rest = base := by
  rw [ahead, Nat.sub_self]
  rfl

theorem rest_ahead (h : ts <:+ base.rest) : (base.ahead ts).rest = ts := by
  rw [rest, ahead, advance, Cursor.rest_advance]
  exact (List.suffix_iff_eq_drop.mp h).symm

theorem index_ahead (base : TokenStream) (ts : List Token) :
    (base.ahead ts).cursor.index = base.cursor.index + (base.rest.length - ts.length) :=
  Cursor.index_advance _ _ (Nat.sub_le _ _)

/-- Tokens ahead of a stream are known from where they stand. -/
theorem eq_of_index_ahead {ts' : List Token} (h : ts <:+ base.rest) (h' : ts' <:+ base.rest)
    (hindex : (base.ahead ts).cursor.index = (base.ahead ts').cursor.index) : ts = ts' := by
  rw [index_ahead, index_ahead] at hindex
  have hle := h.length_le
  have hle' := h'.length_le
  have hlen : ts.length = ts'.length := by omega
  rw [List.suffix_iff_eq_drop.mp h, List.suffix_iff_eq_drop.mp h', hlen]

/-- Moving on past some tokens. -/
theorem advance_ahead (h : ts <:+ base.rest) (hrest : rest <:+ ts) :
    (base.ahead ts).advance (ts.length - rest.length) = base.ahead rest := by
  have hle := h.length_le
  have hle' := hrest.length_le
  have hsum : base.rest.length - rest.length =
      base.rest.length - ts.length + (ts.length - rest.length) := by omega
  rw [ahead, ahead, hsum, advance, advance, advance, Cursor.advance_add]

theorem token_ahead (h : ts <:+ base.rest) : (base.ahead ts).token = ts.headD base.eof := by
  have hrest : (base.ahead ts).cursor.rest = ts := rest_ahead h
  rw [token, Cursor.current?, hrest]
  cases ts <;> rfl

theorem advance_one_ahead {t : Token} (h : t :: ts <:+ base.rest) :
    (base.ahead (t :: ts)).advance 1 = base.ahead ts := by
  have hmove := advance_ahead h (List.suffix_cons t ts)
  rwa [List.length_cons, Nat.add_sub_cancel_left] at hmove

end TokenStream

/-! ## 2. What a production reads -/

namespace Production

variable {α β : Type}

/-- What a production reads of some tokens if nothing is remembered, and the
tokens it leaves. -/
def on (eof : Token) (p : Production α) (ts : List Token) : Option (α × List Token) :=
  (p (.ofRest eof ts) (.empty false)).1.map fun (a, s) => (a, s.rest)

/-- The operand productions with their names. -/
def operandRules : List (Rule × Production Operand) :=
  [(.immediate, immediate), (.register, register), (.indirectName, indirectName),
   (.indirectRegister, indirectRegister), (.name, name), (.indirectImmediate, indirectImmediate)]

/-- The operand production with a name. -/
def operandOf? : Rule → Option (Production Operand)
  | .immediate => some immediate
  | .register => some register
  | .name => some name
  | .indirectName => some indirectName
  | .indirectRegister => some indirectRegister
  | .indirectImmediate => some indirectImmediate
  | _ => none

/-- The statement production with a name. -/
def statementOf (n : Nat) (body : Production Statement) : Rule → Production Statement
  | .label => label
  | .localLabel => localLabel
  | .move => binary [.op .mov, .sizedMove .word, .sizedMove .dword, .sizedMove .qword]
  | .nullary op => nullary (.op op)
  | .unary op => unary (.op op)
  | .binary op => binary [.op op]
  | .xor => xor
  | .data => data n
  | .times => times body
  | _ => fail

/-- The names of the statement productions in the order they are tried. -/
def statementOrder : List Rule :=
  [.label, .move, .nullary .hlt, .binary .inb, .unary .inc, .unary .jmp, .data, .xor,
   .binary .add, .nullary .ret, .unary .call, .binary .mul, .unary .je, .binary .cmp, .unary .jl,
   .binary .outb, .times, .localLabel, .nullary .sti, .nullary .cli, .unary .ldidt,
   .nullary .iret, .unary .calle]

theorem statementRules_eq (n : Nat) (body : Production Statement) :
    statementRules n body = statementOrder.map fun rule => (rule, statementOf n body rule) := by
  delta statementRules statementOrder
  simp only [List.map_cons, List.map_nil, List.cons_append, List.nil_append]
  rfl

theorem operandOf?_of_mem_statementOrder {rule : Rule} (h : rule ∈ statementOrder) :
    operandOf? rule = none := by
  have hall : ∀ rule ∈ statementOrder, operandOf? rule = none := by
    simp [statementOrder, operandOf?]
  exact hall rule h

/-- What a named production reads of some tokens.  The number of tokens bounds
how deep repetitions can nest in them. -/
def ruleOn (eof : Token) (rule : Rule) (ts : List Token) : Option (Product × List Token) :=
  match operandOf? rule with
  | some p => (p.on eof ts).map fun (o, rest) => (.operand o, rest)
  | none => ((statementOf (ts.length - 1) (statement (ts.length - 1)) rule).on eof ts).map
      fun (s, rest) => (.statement s, rest)

end Production

/-- Everything that is remembered was read where it says, and nothing was ever
asked for as something that it is not. -/
structure Memo.Faithful (memo : Memo) (base : TokenStream) : Prop where
  read : ∀ i rule product stop, memo.find? i rule = some (product, stop) →
    ∃ ts rest, ts <:+ base.rest ∧ rest <:+ ts ∧ (base.ahead ts).cursor.index = i ∧
      (base.ahead rest).cursor.index = stop ∧
      Production.ruleOn base.eof rule ts = some (product, rest)
  fits : memo.misfits = 0

theorem Memo.faithful_empty (enabled : Bool) (base : TokenStream) :
    (Memo.empty enabled).Faithful base := by
  refine ⟨fun i rule product stop h => ?_, rfl⟩
  simp [Memo.find?, Memo.empty] at h

theorem Memo.Faithful.remember {memo : Memo} {base : TokenStream} (h : memo.Faithful base)
    {ts rest : List Token} {rule : Rule} {product : Product} (hts : ts <:+ base.rest)
    (hrest : rest <:+ ts) (hread : Production.ruleOn base.eof rule ts = some (product, rest)) :
    (memo.remember (base.ahead ts).cursor.index rule product
      (base.ahead rest).cursor.index).Faithful base := by
  unfold Memo.remember
  cases hen : memo.enabled with
  | false =>
    rw [if_neg Bool.false_ne_true]
    exact h
  | true =>
    refine ⟨fun i rule' product' stop' hfind => ?_, h.fits⟩
    simp only [if_true, Memo.find?, Std.HashMap.getElem?_insert] at hfind
    split at hfind
    · rename_i heq
      simp only [beq_iff_eq, Prod.mk.injEq] at heq
      obtain ⟨rfl, rfl⟩ := heq
      cases hfind
      exact ⟨ts, rest, hts, hrest, rfl, rfl, hread⟩
    · exact h.read i rule' product' stop' (by rw [Memo.find?, hen, if_pos rfl, hfind])

/-- What a production makes of a memory: all of it was really read, and a memory that
remembers nothing stays as it is. -/
structure Memo.Grows (memo : Memo) (base : TokenStream) (memo' : Memo) : Prop where
  faithful : memo'.Faithful base
  idle : memo.enabled = false → memo' = memo

namespace Memo.Grows

variable {memo memo' memo'' : Memo} {base : TokenStream}

theorem refl (h : memo.Faithful base) : memo.Grows base memo := ⟨h, fun _ => rfl⟩

theorem trans (h : memo.Grows base memo') (h' : memo'.Grows base memo'') :
    memo.Grows base memo'' := by
  refine ⟨h'.faithful, fun hen => ?_⟩
  have hsame := h.idle hen
  rw [h'.idle (hsame ▸ hen), hsame]

theorem remember (h : memo.Grows base memo') {ts rest : List Token} {rule : Rule}
    {product : Product} (hts : ts <:+ base.rest) (hrest : rest <:+ ts)
    (hread : Production.ruleOn base.eof rule ts = some (product, rest)) :
    memo.Grows base (memo'.remember (base.ahead ts).cursor.index rule product
      (base.ahead rest).cursor.index) := by
  refine ⟨h.faithful.remember hts hrest hread, fun hen => ?_⟩
  have hsame := h.idle hen
  rw [Memo.remember, hsame, hen, if_neg Bool.false_ne_true]

end Memo.Grows

/-! ## 3. Regular productions -/

/-- A production reads of some tokens what it reads when nothing is remembered,
wherever they stand in a stream, if there are at most `k` of them. -/
def Production.Regular {α : Type} (k : Nat) (p : Production α) : Prop :=
  ∀ (base : TokenStream) (memo : Memo) (ts : List Token), base.eof.kind = .eof →
    memo.Faithful base → ts <:+ base.rest → ts.length ≤ k →
    (∀ a rest, p.on base.eof ts = some (a, rest) → rest <:+ ts) ∧
    ∃ memo', memo.Grows base memo' ∧ p (base.ahead ts) memo =
      ((p.on base.eof ts).map fun (a, rest) => (a, base.ahead rest), memo')

namespace Production

variable {α β : Type} {k : Nat} {eof : Token}

/-- What a regular production reads when it starts at the front of a stream. -/
theorem Regular.run {p : Production α} (hp : Regular k p) (heof : eof.kind = .eof)
    {ts : List Token} (hk : ts.length ≤ k) {memo : Memo}
    (hmemo : memo.Faithful (.ofRest eof ts)) :
    (∀ a rest, p.on eof ts = some (a, rest) → rest <:+ ts) ∧
    ∃ memo', memo.Grows (.ofRest eof ts) memo' ∧ p (.ofRest eof ts) memo =
      ((p.on eof ts).map fun (a, rest) => (a, (TokenStream.ofRest eof ts).ahead rest), memo') := by
  have h := hp (.ofRest eof ts) memo ts heof hmemo (List.suffix_refl ts) hk
  rwa [show (TokenStream.ofRest eof ts).ahead ts = .ofRest eof ts from
    TokenStream.ahead_rest (.ofRest eof ts)] at h

theorem Regular.suffix {p : Production α} (hp : Regular k p) (heof : eof.kind = .eof)
    {ts rest : List Token} (hk : ts.length ≤ k) {a : α} (h : p.on eof ts = some (a, rest)) :
    rest <:+ ts :=
  (hp.run heof hk (Memo.faithful_empty false _)).1 a rest h

/-- A production is regular if a function says what it reads of the tokens
ahead, whatever is remembered. -/
theorem regular_of_reads {p : Production α} (f : Token → List Token → Option (α × List Token))
    (hsuffix : ∀ eof ts a rest, eof.kind = .eof → ts.length ≤ k → f eof ts = some (a, rest) →
      rest <:+ ts)
    (hrun : ∀ (base : TokenStream) memo ts, base.eof.kind = .eof → memo.Faithful base →
      ts <:+ base.rest → ts.length ≤ k → ∃ memo', memo.Grows base memo' ∧
        p (base.ahead ts) memo =
          ((f base.eof ts).map fun (a, rest) => (a, base.ahead rest), memo')) :
    Regular k p ∧ ∀ eof ts, eof.kind = .eof → ts.length ≤ k → p.on eof ts = f eof ts := by
  have hon : ∀ eof ts, eof.kind = .eof → ts.length ≤ k → p.on eof ts = f eof ts := by
    intro eof ts heof hk
    obtain ⟨memo', -, h⟩ := hrun (.ofRest eof ts) (.empty false) ts heof
      (Memo.faithful_empty false _) (List.suffix_refl ts) hk
    have hfront : (TokenStream.ofRest eof ts).ahead ts = .ofRest eof ts :=
      TokenStream.ahead_rest (.ofRest eof ts)
    rw [hfront] at h
    rw [on, h]
    cases hf : f eof ts with
    | none =>
      rw [show (TokenStream.ofRest eof ts).eof = eof from rfl, hf]
      rfl
    | some r =>
      obtain ⟨a, rest⟩ := r
      have hrest : ((TokenStream.ofRest eof ts).ahead rest).rest = rest :=
        TokenStream.rest_ahead (hsuffix eof ts a rest heof hk hf)
      rw [show (TokenStream.ofRest eof ts).eof = eof from rfl, hf]
      simp only [Option.map_some, hrest]
  refine ⟨?_, hon⟩
  intro base memo ts heof hmemo hts hk
  rw [hon base.eof ts heof hk]
  exact ⟨fun a rest => hsuffix base.eof ts a rest heof hk, hrun base memo ts heof hmemo hts hk⟩

/-- Reading one thing and then another.  If the first one reads at least one
token, the second one need only be regular for fewer tokens. -/
theorem bind_spec {p : Production α} {f : α → Production β} {j : Nat} (hp : Regular k p)
    (hj : ∀ eof ts a rest, eof.kind = .eof → ts.length ≤ k → p.on eof ts = some (a, rest) →
      rest.length ≤ j)
    (hf : ∀ a, Regular j (f a)) :
    Regular k (p >>= f) ∧ ∀ eof ts, eof.kind = .eof → ts.length ≤ k →
      (p >>= f).on eof ts = (p.on eof ts).bind fun (a, rest) => (f a).on eof rest := by
  refine regular_of_reads (fun eof ts => (p.on eof ts).bind fun (a, rest) => (f a).on eof rest)
    ?_ ?_
  · intro eof ts b rest heof hk h
    obtain ⟨⟨a, mid⟩, ha, hb⟩ := Option.bind_eq_some_iff.mp h
    exact ((hf a).suffix heof (hj eof ts a mid heof hk ha) hb).trans (hp.suffix heof hk ha)
  · intro base memo ts heof hmemo hts hk
    obtain ⟨hsuffix, memo', hmemo', hrun⟩ := hp base memo ts heof hmemo hts hk
    change ∃ memo', _ ∧ Production.bind p f (base.ahead ts) memo = _
    rw [Production.bind, hrun]
    cases ha : p.on base.eof ts with
    | none => exact ⟨memo', hmemo', rfl⟩
    | some r =>
      obtain ⟨a, mid⟩ := r
      obtain ⟨-, memo'', hmemo'', hrun'⟩ := hf a base memo' mid heof hmemo'.faithful
        ((hsuffix a mid ha).trans hts) (hj base.eof ts a mid heof hk ha)
      exact ⟨memo'', hmemo'.trans hmemo'', hrun'⟩

theorem Regular.bind {p : Production α} {f : α → Production β} (hp : Regular k p)
    (hf : ∀ a, Regular k (f a)) : Regular k (p >>= f) :=
  (bind_spec hp (fun _ _ _ _ heof hk h => Nat.le_trans (hp.suffix heof hk h).length_le hk) hf).1

theorem pure_spec (k : Nat) (a : α) :
    Regular k (Pure.pure a : Production α) ∧ ∀ eof ts, eof.kind = .eof → ts.length ≤ k →
      (Pure.pure a : Production α).on eof ts = some (a, ts) :=
  regular_of_reads (fun _ ts => some (a, ts))
    (fun _ ts _ _ _ _ h => by cases h; exact List.suffix_refl ts)
    (fun _ memo _ _ hmemo _ _ => ⟨memo, .refl hmemo, rfl⟩)

theorem fail_spec (k : Nat) :
    Regular k (fail : Production α) ∧ ∀ eof ts, eof.kind = .eof → ts.length ≤ k →
      (fail : Production α).on eof ts = none :=
  regular_of_reads (fun _ _ => none) (fun _ _ _ _ _ _ h => by cases h)
    (fun _ memo _ _ hmemo _ _ => ⟨memo, .refl hmemo, rfl⟩)

/-- The first of some productions reads what the first one that succeeds
reads. -/
theorem firstOf_spec {ps : List (Production α)} (hps : ∀ p ∈ ps, Regular k p) :
    Regular k (firstOf ps) ∧ ∀ eof ts, eof.kind = .eof → ts.length ≤ k →
      (firstOf ps).on eof ts = ps.findSome? fun p => p.on eof ts := by
  induction ps with
  | nil => exact fail_spec k
  | cons p ps ih =>
    have hp := hps p List.mem_cons_self
    obtain ⟨hrest, hon⟩ := ih fun q hq => hps q (List.mem_cons_of_mem p hq)
    refine regular_of_reads (fun eof ts => (p :: ps).findSome? fun p => p.on eof ts) ?_ ?_
    · intro eof ts a rest heof hk h
      rw [List.findSome?_cons] at h
      cases ha : p.on eof ts with
      | none => rw [ha, ← hon eof ts heof hk] at h; exact hrest.suffix heof hk h
      | some r => rw [ha] at h; cases h; exact hp.suffix heof hk ha
    · intro base memo ts heof hmemo hts hk
      obtain ⟨-, memo', hmemo', hrun⟩ := hp base memo ts heof hmemo hts hk
      simp only [firstOf, hrun, List.findSome?_cons]
      cases p.on base.eof ts with
      | some r => exact ⟨memo', hmemo', rfl⟩
      | none =>
        obtain ⟨-, memo'', hmemo'', hrun'⟩ := hrest base memo' ts heof hmemo'.faithful hts hk
        rw [hon base.eof ts heof hk] at hrun'
        exact ⟨memo'', hmemo'.trans hmemo'', hrun'⟩

theorem optional_spec {p : Production α} (hp : Regular k p) :
    Regular k (optional p) ∧ ∀ eof ts, eof.kind = .eof → ts.length ≤ k →
      (optional p).on eof ts = some (((p.on eof ts).map fun (a, rest) => (some a, rest)).getD
        (none, ts)) := by
  refine regular_of_reads (fun eof ts =>
    some (((p.on eof ts).map fun (a, rest) => (some a, rest)).getD (none, ts))) ?_ ?_
  · intro eof ts a rest heof hk h
    cases ha : p.on eof ts with
    | none => rw [ha] at h; cases h; exact List.suffix_refl ts
    | some r => rw [ha] at h; cases h; exact hp.suffix heof hk ha
  · intro base memo ts heof hmemo hts hk
    obtain ⟨-, memo', hmemo', hrun⟩ := hp base memo ts heof hmemo hts hk
    rw [optional, hrun]
    cases p.on base.eof ts <;> exact ⟨memo', hmemo', rfl⟩

/-- A named production reads what the production reads: if it is answered from
memory, the answer was read here before. -/
theorem capture_spec [Memorable α] {p : Production α} {rule : Rule} (hp : Regular k p)
    (hmem : ∀ a : α, Memorable.ofProduct? (Memorable.toProduct a) = some a)
    (hrule : ∀ eof ts, eof.kind = .eof → ts.length ≤ k →
      ruleOn eof rule ts = (p.on eof ts).map fun (a, rest) => (Memorable.toProduct a, rest)) :
    Regular k (capture rule p) ∧ ∀ eof ts, eof.kind = .eof → ts.length ≤ k →
      (capture rule p).on eof ts = p.on eof ts := by
  refine regular_of_reads (fun eof ts => p.on eof ts)
    (fun eof ts a rest heof hk h => hp.suffix heof hk h) ?_
  intro base memo ts heof hmemo hts hk
  unfold capture
  cases hfind : memo.find? (base.ahead ts).cursor.index rule with
  | some entry =>
    obtain ⟨product, stop⟩ := entry
    obtain ⟨ts', rest, hts', hrest, hindex, rfl, hread⟩ := hmemo.read _ rule product stop hfind
    cases TokenStream.eq_of_index_ahead hts' hts hindex
    rw [hrule base.eof ts heof hk] at hread
    obtain ⟨⟨a, rest'⟩, ha, heq⟩ := Option.map_eq_some_iff.mp hread
    cases heq
    have hle := hts.length_le
    have hle' := hrest.length_le
    have hmove : (base.ahead rest).cursor.index - (base.ahead ts).cursor.index =
        ts.length - rest.length := by
      rw [TokenStream.index_ahead, TokenStream.index_ahead]
      omega
    simp only [hfind, hmem, Option.map_some, hmove, TokenStream.advance_ahead hts hrest, ha]
    exact ⟨memo, .refl hmemo, rfl⟩
  | none =>
    obtain ⟨hsuffix, memo', hmemo', hrun⟩ := hp base memo ts heof hmemo hts hk
    simp only [hfind, hrun]
    cases ha : p.on base.eof ts with
    | none => exact ⟨memo', hmemo', rfl⟩
    | some r =>
      obtain ⟨a, rest⟩ := r
      refine ⟨memo'.remember (base.ahead ts).cursor.index rule (Memorable.toProduct a)
        (base.ahead rest).cursor.index, hmemo'.remember hts (hsuffix a rest ha) ?_, rfl⟩
      rw [hrule base.eof ts heof hk, ha]
      rfl

/-! ## 4. Primitive productions -/

theorem place_spec (k : Nat) :
    Regular k place ∧ ∀ eof ts, eof.kind = .eof → ts.length ≤ k →
      place.on eof ts = some ((ts.headD eof).pos, ts) := by
  refine regular_of_reads (fun eof ts => some ((ts.headD eof).pos, ts))
    (fun _ ts _ _ _ _ h => by cases h; exact List.suffix_refl ts) ?_
  intro base memo ts heof hmemo hts hk
  exact ⟨memo, .refl hmemo, by rw [place, TokenStream.token_ahead hts]; rfl⟩

/-- What is read of some tokens by looking at the first one. -/
def firstToken (g : Token → Option α) : List Token → Option (α × List Token)
  | [] => none
  | t :: rest => (g t).map fun a => (a, rest)

/-- A production that looks at one token, which is not the end token, and takes
it. -/
theorem firstToken_spec {p : Production α} (g : Token → Option α)
    (heof : ∀ t : Token, t.kind = .eof → g t = none)
    (hp : ∀ s memo, p s memo = ((g s.token).map fun a => (a, s.advance 1), memo)) (k : Nat) :
    Regular k p ∧ ∀ eof ts, eof.kind = .eof → ts.length ≤ k →
      p.on eof ts = firstToken g ts := by
  refine regular_of_reads (fun _ ts => firstToken g ts) ?_ ?_
  · intro eof ts a rest _ _ h
    cases ts with
    | nil => cases h
    | cons t ts =>
      obtain ⟨b, -, hb⟩ := Option.map_eq_some_iff.mp h
      cases hb
      exact List.suffix_cons t _
  · intro base memo ts heof' hmemo hts hk
    refine ⟨memo, .refl hmemo, ?_⟩
    rw [hp, TokenStream.token_ahead hts]
    cases ts with
    | nil => rw [List.headD_nil, heof base.eof heof']; rfl
    | cons t rest =>
      rw [List.headD_cons, firstToken, TokenStream.advance_one_ahead hts, Option.map_map]
      rfl

theorem length_of_firstToken {g : Token → Option α} {ts rest : List Token} {a : α}
    (h : firstToken g ts = some (a, rest)) : ts.length = rest.length + 1 := by
  cases ts with
  | nil => cases h
  | cons t ts =>
    obtain ⟨b, -, hb⟩ := Option.map_eq_some_iff.mp h
    cases hb
    rfl

theorem take_spec (kind : TokenKind) (k : Nat) :
    Regular k (take kind) ∧ ∀ eof ts, eof.kind = .eof → ts.length ≤ k → (take kind).on eof ts =
      firstToken (fun t => if t.kind = kind ∧ kind ≠ .eof then some t else none) ts := by
  refine firstToken_spec _ (fun t ht => if_neg fun h => h.2 (h.1 ▸ ht)) (fun s memo => ?_) k
  rw [take, TokenStream.take?]
  split <;> rfl

theorem symbol_spec (text : String) (k : Nat) :
    Regular k (symbol text) ∧ ∀ eof ts, eof.kind = .eof → ts.length ≤ k → (symbol text).on eof ts =
      firstToken (fun t => if t.kind = .symbol ∧ t.text = text then some () else none) ts := by
  refine firstToken_spec _ (fun t ht => if_neg fun h => by rw [ht] at h; cases h.1)
    (fun s memo => ?_) k
  rw [symbol, TokenStream.symbol?]
  split <;> rfl

theorem keyword_spec (ms : List Mnemonic) (k : Nat) :
    Regular k (keyword ms) ∧ ∀ eof ts, eof.kind = .eof → ts.length ≤ k → (keyword ms).on eof ts =
      firstToken (fun t => if t.kind = .mnemonic then ms.find? fun m => t.id = m.index else none)
        ts := by
  refine firstToken_spec _ (fun t ht => if_neg fun h => by rw [ht] at h; cases h)
    (fun s memo => ?_) k
  rw [keyword, TokenStream.mnemonic?]
  split <;> rfl

/-- The data item that a token stands for. -/
def itemOf? (t : Token) : Option Operand :=
  match t.kind with
  | .string => some ⟨.text t.text, t.pos⟩
  | .number => some ⟨.immediate t.value, t.pos⟩
  | _ => none

theorem dataItem_spec (k : Nat) :
    Regular k dataItem ∧ ∀ eof ts, eof.kind = .eof → ts.length ≤ k →
      dataItem.on eof ts = firstToken itemOf? ts := by
  refine firstToken_spec _ (fun t ht => by rw [itemOf?, ht]) (fun s memo => ?_) k
  cases hkind : s.token.kind <;> simp [dataItem, itemOf?, hkind]

/-! ## 5. Operands and statements -/

/-- A production that is regular for any number of tokens. -/
class Uniform (p : Production α) : Prop where
  regular : ∀ k, Regular k p

theorem on_bind (p : Production α) (f : α → Production β) [Uniform p] [∀ a, Uniform (f a)]
    (heof : eof.kind = .eof) (ts : List Token) :
    (p >>= f).on eof ts = (p.on eof ts).bind fun (a, rest) => (f a).on eof rest :=
  (bind_spec (Uniform.regular ts.length) (fun _ _ _ _ heof hk h =>
      Nat.le_trans ((Uniform.regular ts.length).suffix heof hk h).length_le hk)
    (fun _ => Uniform.regular ts.length)).2 eof ts heof (Nat.le_refl _)

instance {p : Production α} {f : α → Production β} [Uniform p] [∀ a, Uniform (f a)] :
    Uniform (p >>= f) where
  regular k := (Uniform.regular k).bind fun _ => Uniform.regular k

instance (a : α) : Uniform (Pure.pure a : Production α) where
  regular k := (pure_spec k a).1

instance : Uniform (fail : Production α) where
  regular k := (fail_spec k).1

instance {p : Production α} [Uniform p] : Uniform (optional p) where
  regular k := (optional_spec (Uniform.regular k)).1

instance {c : Prop} [Decidable c] {p q : Production α} [Uniform p] [Uniform q] :
    Uniform (if c then p else q) := by
  split <;> infer_instance

instance : Uniform place where
  regular k := (place_spec k).1

instance (kind : TokenKind) : Uniform (take kind) where
  regular k := (take_spec kind k).1

instance (text : String) : Uniform (symbol text) where
  regular k := (symbol_spec text k).1

instance (ms : List Mnemonic) : Uniform (keyword ms) where
  regular k := (keyword_spec ms k).1

instance : Uniform dataItem where
  regular k := (dataItem_spec k).1

instance : Uniform immediate := by unfold immediate; infer_instance

instance : Uniform register := by unfold register; infer_instance

instance : Uniform labelName := by unfold labelName; infer_instance

instance : Uniform name := by unfold name; infer_instance

instance {p : Production OperandForm} [Uniform p] : Uniform (parenthesized p) := by
  unfold parenthesized
  infer_instance

instance : Uniform indirectName := by unfold indirectName; infer_instance

instance : Uniform indirectRegister := by unfold indirectRegister; infer_instance

instance : Uniform indirectImmediate := by unfold indirectImmediate; infer_instance

theorem findSome?_eq_of_forall_mem {γ δ : Type} {xs : List γ} {f g : γ → Option δ}
    (h : ∀ x ∈ xs, f x = g x) : xs.findSome? f = xs.findSome? g := by
  induction xs with
  | nil => rfl
  | cons x xs ih =>
    rw [List.findSome?_cons, List.findSome?_cons, h x List.mem_cons_self,
      ih fun y hy => h y (List.mem_cons_of_mem x hy)]

/-- Named productions that are tried in order. -/
theorem alternatives_spec [Memorable α] {rules : List (Rule × Production α)}
    (hmem : ∀ a : α, Memorable.ofProduct? (Memorable.toProduct a) = some a)
    (hrules : ∀ r ∈ rules, Regular k r.2)
    (hnames : ∀ r ∈ rules, ∀ eof ts, eof.kind = .eof → ts.length ≤ k →
      ruleOn eof r.1 ts = (r.2.on eof ts).map fun (a, rest) => (Memorable.toProduct a, rest)) :
    Regular k (alternatives rules) ∧ ∀ eof ts, eof.kind = .eof → ts.length ≤ k →
      (alternatives rules).on eof ts = rules.findSome? fun r => r.2.on eof ts := by
  have hcapture := fun r hr => capture_spec (hrules r hr) hmem (hnames r hr)
  have hregular : ∀ r ∈ rules, Regular k (capture r.1 r.2) := fun r hr => (hcapture r hr).1
  have hfirst := firstOf_spec (List.forall_mem_map.mpr hregular)
  refine ⟨hfirst.1, ?_⟩
  intro eof ts heof hk
  have hon := hfirst.2 eof ts heof hk
  rw [List.findSome?_map] at hon
  exact hon.trans (findSome?_eq_of_forall_mem fun r hr => (hcapture r hr).2 eof ts heof hk)

theorem operand_spec (k : Nat) :
    Regular k operand ∧ ∀ eof ts, eof.kind = .eof → ts.length ≤ k →
      operand.on eof ts = operandRules.findSome? fun r => r.2.on eof ts := by
  refine alternatives_spec (fun o => rfl) ?_ ?_
  · simp only [List.forall_mem_cons]
    exact ⟨Uniform.regular k, Uniform.regular k, Uniform.regular k, Uniform.regular k,
      Uniform.regular k, Uniform.regular k, by simp⟩
  · simp only [List.forall_mem_cons]
    exact ⟨fun _ _ _ _ => rfl, fun _ _ _ _ => rfl, fun _ _ _ _ => rfl, fun _ _ _ _ => rfl,
      fun _ _ _ _ => rfl, fun _ _ _ _ => rfl, by simp⟩

instance : Uniform operand where
  regular k := (operand_spec k).1

instance : Uniform label := by unfold label; infer_instance

instance : Uniform localLabel := by unfold localLabel; infer_instance

instance (m : Mnemonic) : Uniform (nullary m) := by unfold nullary; infer_instance

instance (m : Mnemonic) : Uniform (unary m) := by unfold unary; infer_instance

instance (ms : List Mnemonic) : Uniform (binary ms) := by unfold binary; infer_instance

instance : Uniform secondOperand := by unfold secondOperand; infer_instance

instance : Uniform xor := by unfold xor; infer_instance

instance uniform_dataItems (n : Nat) : Uniform (dataItems n) := by
  induction n with
  | zero => exact inferInstanceAs (Uniform fail)
  | succ n ih => unfold dataItems; infer_instance

instance (n : Nat) : Uniform (data n) := by unfold data; infer_instance

/-- What a repetition reads, if its body is regular for fewer tokens. -/
theorem times_spec {body : Production Statement} (hbody : Regular k body) :
    Regular (k + 1) (times body) ∧ ∀ eof ts, eof.kind = .eof → ts.length ≤ k + 1 →
      (times body).on eof ts = ((keyword [.times]).on eof ts).bind fun (_, ts') =>
        ((take .number).on eof ts').bind fun (count, ts'') =>
          (body.on eof ts'').map fun (s, rest) =>
            (.times count.value s (ts.headD eof).pos, rest) := by
  have hle : ∀ {γ} {p : Production γ}, Regular k p → ∀ eof ts a rest, eof.kind = .eof →
      ts.length ≤ k → p.on eof ts = some (a, rest) → rest.length ≤ k :=
    fun hp _ _ _ _ heof hk h => Nat.le_trans (hp.suffix heof hk h).length_le hk
  have hresult := fun (pos : Position) (count : Token) => bind_spec hbody (hle hbody)
    (fun s => (pure_spec k (Statement.times count.value s pos)).1)
  have hcount := fun pos => bind_spec (take_spec .number k).1 (hle (take_spec .number k).1)
    (fun count => (hresult pos count).1)
  -- The keyword takes a token, so the rest is within the bound of the body.
  have hkeyword := fun pos => bind_spec (keyword_spec [.times] (k + 1)).1
    (fun eof ts a rest heof hk h => by
      rw [(keyword_spec [.times] (k + 1)).2 eof ts heof hk] at h
      have := length_of_firstToken h
      omega)
    (fun _ => (hcount pos).1)
  have hplace := bind_spec (place_spec (k + 1)).1
    (fun eof ts a rest heof hk h =>
      Nat.le_trans ((place_spec (k + 1)).1.suffix heof hk h).length_le hk)
    (fun pos => (hkeyword pos).1)
  refine ⟨hplace.1, ?_⟩
  intro eof ts heof hk
  refine (hplace.2 eof ts heof hk).trans ?_
  rw [(place_spec (k + 1)).2 eof ts heof hk, Option.bind_some]
  refine ((hkeyword _).2 eof ts heof hk).trans ?_
  cases hkw : (keyword [.times]).on eof ts with
  | none => rfl
  | some r =>
    obtain ⟨m, ts'⟩ := r
    have hk' : ts'.length ≤ k := by
      rw [(keyword_spec [.times] (k + 1)).2 eof ts heof hk] at hkw
      have := length_of_firstToken hkw
      omega
    simp only [Option.bind_some]
    refine ((hcount _).2 eof ts' heof hk').trans ?_
    cases hnum : (take .number).on eof ts' with
    | none => rfl
    | some r =>
      obtain ⟨count, ts''⟩ := r
      have hk'' := hle (take_spec .number k).1 eof ts' count ts'' heof hk' hnum
      simp only [Option.bind_some]
      refine ((hresult _ count).2 eof ts'' heof hk'').trans ?_
      cases hs : body.on eof ts'' with
      | none => rfl
      | some r =>
        obtain ⟨s, rest⟩ := r
        exact (pure_spec k _).2 eof rest heof (hle hbody eof ts'' s rest heof hk'' hs)

theorem on_dataItems_succ (n : Nat) (heof : eof.kind = .eof) (ts : List Token) :
    (dataItems (n + 1)).on eof ts = (firstToken itemOf? ts).bind fun (item, ts') =>
      match (symbol ",").on eof ts' with
      | some (_, ts'') => ((dataItems n).on eof ts'').map fun (items, rest) => (item :: items, rest)
      | none => some ([item], ts') := by
  rw [dataItems, on_bind _ _ heof, (dataItem_spec ts.length).2 eof ts heof (Nat.le_refl _)]
  cases firstToken itemOf? ts with
  | none => rfl
  | some r =>
    obtain ⟨item, ts'⟩ := r
    simp only [Option.bind_some]
    rw [on_bind _ _ heof,
      (optional_spec (Uniform.regular ts'.length)).2 eof ts' heof (Nat.le_refl _)]
    cases (symbol ",").on eof ts' with
    | none => exact (pure_spec ts'.length [item]).2 eof ts' heof (Nat.le_refl _)
    | some r =>
      obtain ⟨_, ts''⟩ := r
      refine (on_bind (dataItems n) _ heof ts'').trans ?_
      simp only
      cases (dataItems n).on eof ts'' with
      | none => rfl
      | some r => exact (pure_spec r.2.length _).2 eof r.2 heof (Nat.le_refl _)

/-- As many items can be read as there are tokens. -/
theorem on_dataItems_congr {m n : Nat} (heof : eof.kind = .eof) {ts : List Token}
    (hn : ts.length ≤ n) (hm : ts.length ≤ m) :
    (dataItems n).on eof ts = (dataItems m).on eof ts := by
  have hnil : ∀ n, (dataItems n).on eof [] = none := by
    intro n
    cases n with
    | zero => exact (fail_spec 0).2 eof [] heof (Nat.le_refl _)
    | succ n => rw [on_dataItems_succ n heof]; rfl
  induction n generalizing m ts with
  | zero =>
    cases List.length_eq_zero_iff.mp (Nat.le_zero.mp hn)
    rw [hnil, hnil]
  | succ n ih =>
    cases m with
    | zero =>
      cases List.length_eq_zero_iff.mp (Nat.le_zero.mp hm)
      rw [hnil, hnil]
    | succ m =>
      rw [on_dataItems_succ n heof, on_dataItems_succ m heof]
      cases hitem : firstToken itemOf? ts with
      | none => rfl
      | some r =>
        obtain ⟨item, ts'⟩ := r
        have hlen := length_of_firstToken hitem
        simp only [Option.bind_some]
        cases hcomma : (symbol ",").on eof ts' with
        | none => rfl
        | some r =>
          obtain ⟨_, ts''⟩ := r
          have hle := ((symbol_spec "," ts'.length).1.suffix heof (Nat.le_refl _) hcomma).length_le
          have hrest : (dataItems n).on eof ts'' = (dataItems m).on eof ts'' :=
            ih (by omega) (by omega)
          simp only [hrest]

/-- What a data directive reads. -/
theorem on_data (n : Nat) (heof : eof.kind = .eof) (ts : List Token) :
    (data n).on eof ts = ((keyword [.db]).on eof ts).bind fun (_, ts') =>
      ((dataItems n).on eof ts').map fun (items, rest) =>
        (.data items (ts.headD eof).pos, rest) := by
  rw [data, on_bind _ _ heof, (place_spec ts.length).2 eof ts heof (Nat.le_refl _)]
  simp only [Option.bind_some]
  rw [on_bind _ _ heof]
  cases (keyword [.db]).on eof ts with
  | none => rfl
  | some r =>
    obtain ⟨_, ts'⟩ := r
    simp only [Option.bind_some]
    rw [on_bind _ _ heof]
    cases (dataItems n).on eof ts' with
    | none => rfl
    | some r => exact (pure_spec r.2.length _).2 eof r.2 heof (Nat.le_refl _)

theorem on_data_congr {m n : Nat} (heof : eof.kind = .eof) {ts : List Token}
    (hn : ts.length ≤ n + 1) (hm : ts.length ≤ m + 1) :
    (data n).on eof ts = (data m).on eof ts := by
  rw [on_data n heof, on_data m heof]
  cases hkw : (keyword [.db]).on eof ts with
  | none => rfl
  | some r =>
    obtain ⟨_, ts'⟩ := r
    rw [(keyword_spec [.db] ts.length).2 eof ts heof (Nat.le_refl _)] at hkw
    have hlen := length_of_firstToken hkw
    have hitems : (dataItems n).on eof ts' = (dataItems m).on eof ts' :=
      on_dataItems_congr heof (by omega) (by omega)
    simp only [Option.bind_some, hitems]

theorem on_times_congr {m n : Nat} {body body' : Production Statement} (hbody : Regular n body)
    (hbody' : Regular m body')
    (h : ∀ ts, ts.length < n → ts.length < m → body.on eof ts = body'.on eof ts)
    (heof : eof.kind = .eof) {ts : List Token} (hn : ts.length ≤ n + 1) (hm : ts.length ≤ m + 1) :
    (times body).on eof ts = (times body').on eof ts := by
  rw [(times_spec hbody).2 eof ts heof hn, (times_spec hbody').2 eof ts heof hm]
  cases hkw : (keyword [.times]).on eof ts with
  | none => rfl
  | some r =>
    obtain ⟨_, ts'⟩ := r
    rw [(keyword_spec [.times] ts.length).2 eof ts heof (Nat.le_refl _)] at hkw
    have hlen := length_of_firstToken hkw
    simp only [Option.bind_some]
    cases hnum : (take .number).on eof ts' with
    | none => rfl
    | some r =>
      obtain ⟨count, ts''⟩ := r
      rw [(take_spec .number ts'.length).2 eof ts' heof (Nat.le_refl _)] at hnum
      have hlen' := length_of_firstToken hnum
      simp only [Option.bind_some, h ts'' (by omega) (by omega)]

theorem regular_statementOf {n : Nat} {body : Production Statement} (hbody : Regular n body)
    (rule : Rule) : Regular (n + 1) (statementOf n body rule) := by
  cases rule with
  | times => exact (times_spec hbody).1
  | _ => simp only [statementOf]; exact Uniform.regular (n + 1)

/-- The production for statements is regular for as many tokens as repetitions
may nest in it, and for fewer tokens a smaller bound does as well. -/
structure Settled (n : Nat) : Prop where
  regular : Regular n (statement n)
  stable : ∀ m ≤ n, ∀ eof ts, eof.kind = .eof → ts.length < m →
    (statement n).on eof ts = (statement m).on eof ts

theorem on_statementOf_congr {m n : Nat} (hn : Settled n) (hm : Settled m) (hle : m ≤ n)
    (heof : eof.kind = .eof) {ts : List Token} (hts : ts.length ≤ m + 1) (rule : Rule) :
    (statementOf n (statement n) rule).on eof ts =
      (statementOf m (statement m) rule).on eof ts := by
  cases rule with
  | data => exact on_data_congr heof (by omega) hts
  | times =>
    exact on_times_congr hn.regular hm.regular
      (fun ts' _ h => hn.stable m hle eof ts' heof h) heof (by omega) hts
  | _ => rfl

/-- Statements are read by trying the productions in order. -/
theorem statement_succ_spec {n : Nat} (h : ∀ m ≤ n, Settled m) :
    Regular (n + 1) (statement (n + 1)) ∧ ∀ eof ts, eof.kind = .eof → ts.length ≤ n + 1 →
      (statement (n + 1)).on eof ts =
        statementOrder.findSome? fun rule => (statementOf n (statement n) rule).on eof ts := by
  have hrules : Regular (n + 1) (alternatives (statementRules n (statement n))) ∧
      ∀ eof ts, eof.kind = .eof → ts.length ≤ n + 1 →
        (alternatives (statementRules n (statement n))).on eof ts =
          (statementRules n (statement n)).findSome? fun r => r.2.on eof ts := by
    rw [statementRules_eq]
    refine alternatives_spec (fun s => rfl) ?_ ?_
    · intro r hr
      obtain ⟨rule, -, rfl⟩ := List.mem_map.mp hr
      exact regular_statementOf (h n (Nat.le_refl n)).regular rule
    · intro r hr eof ts heof hk
      obtain ⟨rule, hrule, rfl⟩ := List.mem_map.mp hr
      have hfuel := on_statementOf_congr (h n (Nat.le_refl n)) (h (ts.length - 1) (by omega))
        (by omega) heof (show ts.length ≤ ts.length - 1 + 1 by omega) rule
      simp only [ruleOn, operandOf?_of_mem_statementOrder hrule, hfuel]
      rfl
  refine ⟨hrules.1, fun eof ts heof hk => (hrules.2 eof ts heof hk).trans ?_⟩
  rw [statementRules_eq, List.findSome?_map]
  rfl

theorem settled (n : Nat) : Settled n := by
  induction n using Nat.strongRecOn with
  | ind n ih =>
    cases n with
    | zero => exact ⟨(fail_spec 0).1, fun m hm eof ts _ h => by omega⟩
    | succ n =>
      have hall : ∀ m ≤ n, Settled m := fun m hm => ih m (Nat.lt_succ_of_le hm)
      obtain ⟨hregular, hon⟩ := statement_succ_spec hall
      refine ⟨hregular, ?_⟩
      intro m hm eof ts heof hts
      rcases Nat.lt_or_eq_of_le hm with hlt | rfl
      · cases m with
        | zero => omega
        | succ m =>
          have hmn : m ≤ n := by omega
          obtain ⟨-, hon'⟩ := statement_succ_spec fun j hj => hall j (Nat.le_trans hj hmn)
          rw [hon eof ts heof (by omega), hon' eof ts heof (by omega)]
          exact findSome?_eq_of_forall_mem fun rule _ =>
            on_statementOf_congr (hall n (Nat.le_refl n)) (hall m hmn) hmn heof (by omega) rule
      · rfl

/-- A statement is regular for as many tokens as its bound says. -/
theorem regular_statement (n : Nat) : Regular n (statement n) := (settled n).regular

/-- A statement is what the first production reads that succeeds. -/
theorem on_statement_succ (n : Nat) (heof : eof.kind = .eof) {ts : List Token}
    (hts : ts.length ≤ n + 1) : (statement (n + 1)).on eof ts =
      statementOrder.findSome? fun rule => (statementOf n (statement n) rule).on eof ts :=
  (statement_succ_spec fun m _ => settled m).2 eof ts heof hts

end Production

end RegAsm
