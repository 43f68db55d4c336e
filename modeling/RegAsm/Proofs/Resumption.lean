/-
RegAsm.Proofs.Resumption — where a parser stops, and what another call finds.

No statement is read from some tokens if and only if every statement they start
with is a data directive, or repeats one, with a comma right behind it
(`on_statement_eq_none_iff`): the items of a data directive take every comma that
follows, and if no item comes after it, nothing of the directive is left.

A call reads statements one by one and stops at the end token, or at the first
token from which no statement is read.  Either way the stream stays there with no
snapshot open, so that every other call stops at once, at the same token and with
the same answer (`Parser.parse_stops`).

1. Where no statement is read.
2. One statement of a call.
3. A whole call.
4. Further calls.
-/
import Mathlib
import RegAsm.Proofs.Recall
import RegAsm.Proofs.Snapshots

namespace RegAsm

open Machine

/-! ## 1. Where no statement is read -/

/-- The statement is a data directive, or repeats one. -/
def Statement.IsData : Statement → Prop
  | .data _ _ => True
  | .times _ s _ => s.IsData
  | _ => False

/-- Every statement that the tokens start with is a data directive, or repeats one,
with a comma right behind it. -/
def Grammar.Stuck (ts : List Token) : Prop :=
  ∀ used rest s, Stmt used s → ts = used ++ rest →
    s.IsData ∧ ∃ c more, rest = c :: more ∧ IsSymbol "," c

namespace Production

open Grammar

variable {eof : Token} {ts rest : List Token}

/-- A data directive ends where no comma follows. -/
theorem ends_iff_of_isData {s : Statement} (h : s.IsData) : Ends rest s ↔ NoComma rest := by
  induction s with
  | data items pos => exact Iff.rfl
  | times count s pos ih => exact ih h
  | _ => exact h.elim

/-- Where a statement does not end, it is a data directive before a comma, or the
tokens also start with a longer statement, which does end. -/
theorem isData_or_longer {used : List Token} {s : Statement} (h : Stmt used s)
    (hend : ¬ Ends rest s) :
    (s.IsData ∧ ∃ c more, rest = c :: more ∧ IsSymbol "," c) ∨
      ∃ used' rest' s', Stmt used' s' ∧ Ends rest' s' ∧ used ++ rest = used' ++ rest' := by
  induction h with
  | data hk hitems =>
    obtain ⟨c, more, heq, hc⟩ : ∃ c more, rest = c :: more ∧ IsSymbol "," c := by
      simpa [Ends, NoComma] using hend
    exact .inl ⟨trivial, c, more, heq, hc⟩
  | @unary k m ts a hk hm ha =>
    obtain ⟨rfl, c, used', b, more, hc, hb, rfl⟩ : m = .op .xor ∧
        ∃ c used' b more, IsSymbol "," c ∧ Spells used' b ∧ rest = c :: (used' ++ more) := by
      simpa [Ends, NoSecond] using hend
    exact .inr ⟨k :: (ts ++ c :: used'), more, _, .binary hk (by decide) ha hc hb, trivial,
      by simp⟩
  | @times k n ts s hk hn _ ih =>
    obtain ⟨hdata, hcomma⟩ | ⟨used', rest', s', hs', hend', heq⟩ := ih hend
    · exact .inl ⟨hdata, hcomma⟩
    · exact .inr ⟨k :: n :: used', rest', _, .times hk hn hs', hend', by simp [heq]⟩
  | _ => exact absurd trivial hend

/-- No statement is read if and only if the tokens start with data directives before
a comma only, if with any statement at all. -/
theorem on_statement_eq_none_iff (heof : eof.kind = .eof) {n : Nat} (hts : ts.length ≤ n) :
    (statement n).on eof ts = none ↔ Stuck ts := by
  constructor
  · intro hnone used rest s hs heq
    have hread : ∀ {used rest s}, Stmt used s → Ends rest s → ts ≠ used ++ rest := by
      intro used rest s hs hend heq
      rw [(on_statement_iff heof hts).mpr ⟨used, hs, hend, heq⟩] at hnone
      cases hnone
    obtain hdata | ⟨used', rest', s', hs', hend', heq'⟩ :=
      isData_or_longer hs fun hend => hread hs hend heq
    · exact hdata
    · exact absurd (heq.trans heq') (hread hs' hend')
  · intro hstuck
    cases hon : (statement n).on eof ts with
    | none => rfl
    | some found =>
      obtain ⟨s, rest⟩ := found
      obtain ⟨used, hs, hend, heq⟩ := (on_statement_iff heof hts).mp hon
      obtain ⟨hdata, c, more, rfl, hc⟩ := hstuck used rest s hs heq
      exact absurd hc ((ends_iff_of_isData hdata).mp hend c more rfl)

end Production

namespace Grammar

theorem AtEnd.of_append {rest more : List Token} (h : AtEnd (rest ++ more)) : AtEnd rest := by
  intro t ts heq
  exact h t (ts ++ more) (by rw [heq, List.cons_append])

/-- Tokens that lie before an end token. -/
theorem split_before_end {ts first rest : List Token} {eof : Token} (heof : eof.kind = .eof)
    (h : ts ++ [eof] = first ++ rest) (hfirst : ∀ t ∈ first, t.kind ≠ .eof) :
    ∃ rest', ts = first ++ rest' ∧ rest = rest' ++ [eof] := by
  obtain rfl | ⟨rest', t, rfl⟩ := List.eq_nil_or_concat' rest
  · refine absurd heof (hfirst eof ?_)
    rw [← List.append_nil first, ← h]
    exact List.mem_append_right ts (List.mem_singleton_self eof)
  · rw [← List.append_assoc] at h
    obtain ⟨hts, hlast⟩ := List.append_inj' h rfl
    exact ⟨rest', hts, by rw [List.singleton_inj.mp hlast]⟩

/-- An end token behind the others makes no difference. -/
theorem stuck_append_end_iff {ts : List Token} {eof : Token} (heof : eof.kind = .eof) :
    Stuck (ts ++ [eof]) ↔ Stuck ts := by
  constructor
  · intro h used rest s hs heq
    obtain ⟨hdata, c, more, hrest, hc⟩ :=
      h used (rest ++ [eof]) s hs (by rw [heq, List.append_assoc])
    refine ⟨hdata, ?_⟩
    cases rest with
    | nil =>
      obtain ⟨rfl, -⟩ := List.cons.inj hrest
      rw [hc.1] at heof
      cases heof
    | cons t rest =>
      obtain ⟨rfl, -⟩ := List.cons.inj hrest
      exact ⟨t, rest, rfl, hc⟩
  · intro h used rest s hs heq
    obtain ⟨rest', hts, rfl⟩ := split_before_end heof heq hs.kind_ne_eof
    obtain ⟨hdata, c, more, rfl, hc⟩ := h used rest' s hs hts
    exact ⟨hdata, c, more ++ [eof], rfl, hc⟩

end Grammar

/-! ## 2. One statement -/

namespace Parser

open Grammar Production

variable {base : TokenStream} {bound n : Nat} {ts : List Token} {memo : Memo}

theorem token_kind_of_atEnd (heof : base.eof.kind = .eof) (hts : ts <:+ base.rest)
    (hend : AtEnd ts) : (base.ahead ts).token.kind = .eof := by
  rw [TokenStream.token_ahead hts]
  cases ts with
  | nil => exact heof
  | cons t more => exact hend t more rfl

/-- At the end nothing is read. -/
theorem statements_atEnd (acc : Array Statement) (heof : base.eof.kind = .eof)
    (hts : ts <:+ base.rest) (hend : AtEnd ts) :
    statements bound acc (n + 1) ⟨base.ahead ts, memo⟩ = (.ok acc, ⟨base.ahead ts, memo⟩) := by
  rw [statements, if_pos (token_kind_of_atEnd heof hts hend)]

/-- Where no statement is read, the parser stays. -/
theorem statements_stuck (acc : Array Statement) (heof : base.eof.kind = .eof)
    (hmemo : memo.Faithful base) {t : Token} {more : List Token} (hts : t :: more <:+ base.rest)
    (hbound : (t :: more).length ≤ bound) (hkind : t.kind ≠ .eof) (hstuck : Stuck (t :: more)) :
    ∃ memo', memo'.Faithful base ∧ statements bound acc (n + 1) ⟨base.ahead (t :: more), memo⟩ =
      (.error ⟨t⟩, ⟨base.ahead (t :: more), memo'⟩) := by
  have htoken : (base.ahead (t :: more)).token = t := TokenStream.token_ahead hts
  obtain ⟨-, memo', hmemo', hrun⟩ := regular_statement bound base memo _ heof hmemo hts hbound
  rw [(on_statement_eq_none_iff heof hbound).mpr hstuck] at hrun
  refine ⟨memo', hmemo'.faithful, ?_⟩
  rw [statements, if_neg (by rw [htoken]; exact hkind)]
  simp only [hrun, Option.map_none, htoken]

/-- Elsewhere a statement is read, and then the others. -/
theorem statements_step (acc : Array Statement) (heof : base.eof.kind = .eof)
    (hmemo : memo.Faithful base) (hts : ts <:+ base.rest) (hbound : ts.length ≤ bound)
    (hend : ¬ AtEnd ts) (hstuck : ¬ Stuck ts) :
    ∃ used rest s memo', Stmt used s ∧ ts = used ++ rest ∧ memo'.Faithful base ∧
      statements bound acc (n + 1) ⟨base.ahead ts, memo⟩ =
        statements bound (acc.push s) n ⟨base.ahead rest, memo'⟩ := by
  have hkind : ¬ (base.ahead ts).token.kind = .eof := by
    intro h
    refine hend fun t more heq => ?_
    rw [TokenStream.token_ahead hts, heq] at h
    exact h
  obtain ⟨-, memo', hmemo', hrun⟩ := regular_statement bound base memo ts heof hmemo hts hbound
  cases hon : (statement bound).on base.eof ts with
  | none => exact absurd ((on_statement_eq_none_iff heof hbound).mp hon) hstuck
  | some found =>
    obtain ⟨s, rest⟩ := found
    obtain ⟨used, hs, -, heq⟩ := (on_statement_iff heof hbound).mp hon
    rw [hon] at hrun
    refine ⟨used, rest, s, memo', hs, heq, hmemo'.faithful, ?_⟩
    rw [statements, if_neg hkind]
    simp only [hrun, Option.map_some]

/-! ## 3. A whole call -/

/-- The tokens ahead are read as a program up to where no statement is read, or up
to the end. -/
theorem statements_run (acc : Array Statement) (heof : base.eof.kind = .eof)
    (hmemo : memo.Faithful base) (hts : ts <:+ base.rest) (hbound : ts.length ≤ bound)
    (hn : ts.length < n) :
    ∃ first rest program memo', ts = first ++ rest ∧ Program first program ∧
      memo'.Faithful base ∧
      ((AtEnd rest ∧ ∃ out : Array Statement, out.toList = acc.toList ++ program ∧
          statements bound acc n ⟨base.ahead ts, memo⟩ = (.ok out, ⟨base.ahead rest, memo'⟩)) ∨
        ∃ t more, rest = t :: more ∧ t.kind ≠ .eof ∧ Stuck rest ∧
          statements bound acc n ⟨base.ahead ts, memo⟩ =
            (.error ⟨t⟩, ⟨base.ahead rest, memo'⟩)) := by
  induction n generalizing ts memo acc with
  | zero => omega
  | succ n ih =>
    by_cases hend : AtEnd ts
    · exact ⟨[], ts, [], memo, rfl, .nil, hmemo,
        .inl ⟨hend, acc, by simp, statements_atEnd acc heof hts hend⟩⟩
    by_cases hstuck : Stuck ts
    · cases ts with
      | nil => exact absurd (by simp [AtEnd]) hend
      | cons t more =>
        have hkind : t.kind ≠ .eof := fun h => hend fun t' more' heq => by cases heq; exact h
        obtain ⟨memo', hmemo', hrun⟩ := statements_stuck acc heof hmemo hts hbound hkind hstuck
        exact ⟨[], t :: more, [], memo', rfl, .nil, hmemo',
          .inr ⟨t, more, rfl, hkind, hstuck, hrun⟩⟩
    obtain ⟨used, rest, s, memo', hs, rfl, hmemo', hstep⟩ :=
      statements_step (n := n) acc heof hmemo hts hbound hend hstuck
    have hsuffix : rest <:+ used ++ rest := List.suffix_append used rest
    have hshorter : rest.length < (used ++ rest).length := by
      obtain ⟨t, used', rfl, -, -⟩ := hs.exists_head
      rw [List.length_append, List.length_cons]
      omega
    obtain ⟨first, rest', program, memo'', rfl, hprogram, hmemo'', hcase⟩ :=
      ih (acc.push s) hmemo' (hsuffix.trans hts) (by omega) (by omega)
    refine ⟨used ++ first, rest', s :: program, memo'', by simp, .cons hs hprogram, hmemo'', ?_⟩
    rw [hstep]
    obtain ⟨hend', out, hout, hrun⟩ | herror := hcase
    · refine .inl ⟨hend', out, ?_, hrun⟩
      rw [hout, Array.toList_push, List.append_assoc, List.singleton_append]
    · exact .inr herror

/-- A call reads the tokens ahead as a program up to where no statement is read, or
up to the end. -/
theorem parse_run (heof : base.eof.kind = .eof) (hmemo : memo.Faithful base)
    (hts : ts <:+ base.rest) :
    ∃ first rest program memo', ts = first ++ rest ∧ Program first program ∧
      memo'.Faithful base ∧
      ((AtEnd rest ∧
          (Parser.mk (base.ahead ts) memo).parse = (.ok program, ⟨base.ahead rest, memo'⟩)) ∨
        ∃ t more, rest = t :: more ∧ t.kind ≠ .eof ∧ Stuck rest ∧
          (Parser.mk (base.ahead ts) memo).parse = (.error ⟨t⟩, ⟨base.ahead rest, memo'⟩)) := by
  have hlength : (base.ahead ts).cursor.rest.length = ts.length :=
    congrArg List.length (TokenStream.rest_ahead hts)
  obtain ⟨first, rest, program, memo', heq, hprogram, hmemo', hcase⟩ :=
    statements_run #[] heof hmemo hts (Nat.le_succ ts.length) (Nat.lt_succ_self ts.length)
  refine ⟨first, rest, program, memo', heq, hprogram, hmemo', ?_⟩
  simp only [parse, hlength]
  obtain ⟨hend, out, hout, hrun⟩ | ⟨t, more, hrest, hkind, hstuck, hrun⟩ := hcase
  · refine .inl ⟨hend, ?_⟩
    rw [hrun]
    exact congrArg (fun program => (Except.ok program, _)) hout
  · refine .inr ⟨t, more, hrest, hkind, hstuck, ?_⟩
    rw [hrun]
    rfl

/-! ## 4. Further calls -/

/-- At the end a call reads nothing. -/
theorem parse_atEnd (heof : base.eof.kind = .eof) (hts : ts <:+ base.rest) (hend : AtEnd ts) :
    (Parser.mk (base.ahead ts) memo).parse = (.ok [], ⟨base.ahead ts, memo⟩) := by
  simp only [parse, statements_atEnd #[] heof hts hend]
  rfl

/-- Where no statement is read, a call stops at once. -/
theorem parse_stuck (heof : base.eof.kind = .eof) (hmemo : memo.Faithful base) {t : Token}
    {more : List Token} (hts : t :: more <:+ base.rest) (hkind : t.kind ≠ .eof)
    (hstuck : Stuck (t :: more)) :
    ∃ memo', memo'.Faithful base ∧ (Parser.mk (base.ahead (t :: more)) memo).parse =
      (.error ⟨t⟩, ⟨base.ahead (t :: more), memo'⟩) := by
  have hlength : (base.ahead (t :: more)).cursor.rest.length = (t :: more).length :=
    congrArg List.length (TokenStream.rest_ahead hts)
  obtain ⟨memo', hmemo', hrun⟩ := statements_stuck (n := (t :: more).length) #[] heof
    hmemo hts (Nat.le_succ _) hkind hstuck
  refine ⟨memo', hmemo', ?_⟩
  simp only [parse, hlength, hrun]
  rfl

/-- If a call gives an answer and leaves the stream as it was, whatever was
remembered, then so do all calls after it. -/
theorem shown_of_mem_calls {s : TokenStream} {answer : Except ParseError (List Statement)}
    (hcall : ∀ memo : Memo, memo.Faithful base →
      ∃ memo', memo'.Faithful base ∧ (Parser.mk s memo).parse = (answer, ⟨s, memo'⟩))
    (hmemo : memo.Faithful base) :
    ∀ call ∈ (Parser.mk s memo).calls n, shown call = (answer, s) := by
  induction n generalizing memo with
  | zero => exact List.forall_mem_nil _
  | succ n ih =>
    obtain ⟨memo', hmemo', hparse⟩ := hcall memo hmemo
    rw [calls, hparse]
    exact List.forall_mem_cons.mpr ⟨rfl, ih hmemo'⟩

/-- The tokens of a stream that come before its end were given. -/
theorem ofTokens_split {tokens first rest : List Token}
    (h : (TokenStream.ofTokens tokens).rest = first ++ rest)
    (hfirst : ∀ t ∈ first, t.kind ≠ .eof) :
    ∃ rest', tokens = first ++ rest' ∧
      (rest = rest' ∨ rest = rest' ++ [(TokenStream.ofTokens tokens).eof]) := by
  obtain ⟨heof, hrest | hrest⟩ := ofTokens_spec tokens
  · exact ⟨rest, hrest.symm.trans h, .inl rfl⟩
  · obtain ⟨rest', htokens, hrest'⟩ := split_before_end heof (hrest.symm.trans h) hfirst
    exact ⟨rest', htokens, .inr hrest'⟩

/-- Where the stream is at the end, so are the given tokens. -/
theorem ofTokens_split_end {tokens first rest : List Token}
    (h : (TokenStream.ofTokens tokens).rest = first ++ rest)
    (hfirst : ∀ t ∈ first, t.kind ≠ .eof) (hend : AtEnd rest) :
    ∃ rest', tokens = first ++ rest' ∧ AtEnd rest' := by
  obtain ⟨rest', htokens, rfl | rfl⟩ := ofTokens_split h hfirst
  · exact ⟨rest, htokens, hend⟩
  · exact ⟨rest', htokens, hend.of_append⟩

/-- Where no statement is read from the stream, none is from the given tokens. -/
theorem ofTokens_split_stuck {tokens first more : List Token} {t : Token}
    (h : (TokenStream.ofTokens tokens).rest = first ++ t :: more)
    (hfirst : ∀ t ∈ first, t.kind ≠ .eof) (hkind : t.kind ≠ .eof) (hstuck : Stuck (t :: more)) :
    ∃ more', tokens = first ++ t :: more' ∧ Stuck (t :: more') := by
  obtain ⟨heof, -⟩ := ofTokens_spec tokens
  obtain ⟨rest', htokens, hrest | hrest⟩ := ofTokens_split h hfirst
  · exact ⟨more, hrest ▸ htokens, hstuck⟩
  · rw [hrest, stuck_append_end_iff heof] at hstuck
    cases rest' with
    | nil =>
      obtain ⟨rfl, -⟩ := List.cons.inj hrest
      exact absurd heof hkind
    | cons t' more' =>
      obtain ⟨rfl, -⟩ := List.cons.inj hrest
      exact ⟨more', htokens, hstuck⟩

theorem ofTokens_front (tokens : List Token) :
    (TokenStream.ofTokens tokens).cursor.index = 0 ∧
      (TokenStream.ofTokens tokens).cursor.marks = [] := by
  unfold TokenStream.ofTokens
  cases tokens.getLast? with
  | none => exact ⟨rfl, rfl⟩
  | some last =>
    simp only
    split <;> exact ⟨rfl, rfl⟩

/-- A parser of tokens from which no statement is read fails at the first of them. -/
theorem parse_ofTokens_stuck (remembers : Bool) {t : Token} {more : List Token}
    (hkind : t.kind ≠ .eof) (hstuck : Stuck (t :: more)) :
    (ofTokens (t :: more) remembers).parse.1 = .error ⟨t⟩ := by
  obtain ⟨heof, hrest⟩ := ofTokens_spec (t :: more)
  obtain ⟨more', hrest', hstuck'⟩ : ∃ more', (TokenStream.ofTokens (t :: more)).rest = t :: more' ∧
      Stuck (t :: more') := by
    obtain hrest | hrest := hrest
    · exact ⟨more, hrest, hstuck⟩
    · rw [List.cons_append] at hrest
      exact ⟨_, hrest, (stuck_append_end_iff heof).mpr hstuck⟩
  obtain ⟨memo', -, hparse⟩ := parse_stuck heof (Memo.faithful_empty remembers _)
    (hrest' ▸ List.suffix_refl _) hkind hstuck'
  rw [← hrest', TokenStream.ahead_rest] at hparse
  exact congrArg Prod.fst hparse

/-- Nothing is opened or closed between the calls: wherever the stream is moved to,
no snapshot is open. -/
theorem depth_ahead_ofTokens (tokens rest : List Token) :
    ((TokenStream.ofTokens tokens).ahead rest).cursor.depth = 0 := by
  rw [Source.Cursor.depth, TokenStream.ahead, (TokenStream.beside_advance _ _).marks,
    (ofTokens_front tokens).2, List.length_nil]

theorem index_ahead_ofTokens {tokens first rest : List Token}
    (h : (TokenStream.ofTokens tokens).rest = first ++ rest) :
    ((TokenStream.ofTokens tokens).ahead rest).cursor.index = first.length := by
  rw [TokenStream.index_ahead, (ofTokens_front tokens).1, h, List.length_append]
  omega

end Parser

open Grammar in
/-- Whatever the tokens are, a call reads statements up to the end token or up to the
first place where no statement is read.

If it fails, the tokens are a program, the token of the error, and others; only data
directives before a comma can be read from that token on, alone or repeated, and the
parser does not read those.  The cursor stays at the token, and every other call fails
in the same way.  If it succeeds, the cursor stays at an end token behind the program
that was read, and every other call reads nothing.  No snapshot is left open, and the
parser that goes back by snapshots does the same at every call. -/
theorem Parser.parse_stops (tokens : List Token) (remembers : Bool) :
    let call := (ofTokens tokens remembers).parse
    (∀ e, call.1 = .error e → ∃ first more program,
      tokens = first ++ e.token :: more ∧ Program first program ∧
      (ofTokens first remembers).parse.1 = .ok program ∧ Stuck (e.token :: more) ∧
      call.2.stream.token = e.token ∧ call.2.stream.cursor.index = first.length ∧
      ∀ n, ∀ again ∈ call.2.calls n, shown again = (.error e, call.2.stream)) ∧
    (∀ program, call.1 = .ok program → ∃ first rest,
      tokens = first ++ rest ∧ Program first program ∧ AtEnd rest ∧
      call.2.stream.token.kind = .eof ∧ call.2.stream.cursor.index = first.length ∧
      ∀ n, ∀ again ∈ call.2.calls n, shown again = (.ok [], call.2.stream)) ∧
    (∀ t more, tokens = t :: more → t.kind ≠ .eof → Stuck tokens → call.1 = .error ⟨t⟩) ∧
    call.2.stream.cursor.depth = 0 ∧
    ∀ p : Parser, Reader.parse? p = some p.parse := by
  intro call
  obtain ⟨heof, -⟩ := ofTokens_spec tokens
  have hempty := Memo.faithful_empty remembers (TokenStream.ofTokens tokens)
  obtain ⟨first, rest, program, memo', hsplit, hprogram, hmemo', hcase⟩ :=
    parse_run heof hempty (List.suffix_refl _)
  have hsuffix : rest <:+ (TokenStream.ofTokens tokens).rest := ⟨first, hsplit.symm⟩
  rw [TokenStream.ahead_rest] at hcase
  have hstart : ∀ t more, tokens = t :: more → t.kind ≠ .eof → Stuck tokens →
      call.1 = .error ⟨t⟩ := by
    rintro t more rfl hkind hstuck
    exact parse_ofTokens_stuck remembers hkind hstuck
  obtain ⟨hend, hparse⟩ | ⟨t, more, rfl, hkind, hstuck, hparse⟩ := hcase
  · have hcall : call = (.ok program, ⟨(TokenStream.ofTokens tokens).ahead rest, memo'⟩) := hparse
    rw [hcall] at hstart ⊢
    refine ⟨fun e h => (by cases h), ?_, hstart, depth_ahead_ofTokens tokens rest, Reader.parse?_eq⟩
    intro program' h
    cases h
    obtain ⟨rest', htokens, hend'⟩ := ofTokens_split_end hsplit hprogram.kind_ne_eof hend
    refine ⟨first, rest', htokens, hprogram, hend', token_kind_of_atEnd heof hsuffix hend,
      index_ahead_ofTokens hsplit, fun n => ?_⟩
    exact shown_of_mem_calls (fun memo hmemo => ⟨memo, hmemo, parse_atEnd heof hsuffix hend⟩) hmemo'
  · have hcall : call =
        (.error ⟨t⟩, ⟨(TokenStream.ofTokens tokens).ahead (t :: more), memo'⟩) := hparse
    rw [hcall] at hstart ⊢
    refine ⟨?_, fun program h => (by cases h), hstart, depth_ahead_ofTokens tokens _,
      Reader.parse?_eq⟩
    intro e h
    cases h
    obtain ⟨more', htokens, hstuck'⟩ :=
      ofTokens_split_stuck hsplit hprogram.kind_ne_eof hkind hstuck
    have hread : (ofTokens first remembers).parse.1 = .ok program :=
      parse_tokens_iff.mpr ⟨first, [], by simp, hprogram, by simp [AtEnd]⟩
    refine ⟨first, more', program, htokens, hprogram, hread, hstuck',
      TokenStream.token_ahead hsuffix, index_ahead_ofTokens hsplit, fun n => ?_⟩
    exact shown_of_mem_calls (fun memo hmemo => parse_stuck heof hmemo hsuffix hkind hstuck) hmemo'

/-- The second token of `hlt times 3 db 1,`. -/
def repetition : Token :=
  { kind := .mnemonic, text := "TIMES", id := Mnemonic.times.index, pos := ⟨1, 4⟩ }

/-- The tokens of `hlt times 3 db 1,`. -/
def repeatedData : List Token :=
  [{ kind := .mnemonic, text := "HLT", id := (Mnemonic.op .hlt).index, pos := ⟨1, 0⟩ },
   repetition,
   { kind := .number, text := "3", value := 3, pos := ⟨1, 10⟩ },
   { kind := .mnemonic, text := "DB", id := Mnemonic.db.index, pos := ⟨1, 12⟩ },
   { kind := .number, text := "1", value := 1, pos := ⟨1, 15⟩ },
   { kind := .symbol, text := ",", pos := ⟨1, 16⟩ },
   { kind := .eof, pos := ⟨1, 17⟩ }]

theorem Parser.parse_repeatedData (remembers : Bool) :
    (ofTokens repeatedData remembers).parse.1 = .error ⟨repetition⟩ := by
  have habreast := abreast_ofTokens repeatedData remembers
  rw [← (abreast_parse (ofTokens_spec repeatedData).1 habreast).1]
  rfl

/-- The repetition is refused as a whole, after the statement before it was read, and
is refused again by every other call. -/
theorem Parser.parse_stops_repeatedData :
    (ofTokens repeatedData true).parse.1 = .error ⟨repetition⟩ ∧
      ∃ first more program, repeatedData = first ++ repetition :: more ∧
        Grammar.Program first program ∧ Grammar.Stuck (repetition :: more) ∧
        (ofTokens repeatedData true).parse.2.stream.cursor.index = first.length ∧
        ∀ again ∈ (ofTokens repeatedData true).parse.2.calls 3,
          again.1 = .error ⟨repetition⟩ := by
  have hparse := parse_repeatedData true
  obtain ⟨hfail, -⟩ := parse_stops repeatedData true
  obtain ⟨first, more, program, hsplit, hprogram, -, hstuck, -, hindex, hagain⟩ :=
    hfail ⟨repetition⟩ hparse
  refine ⟨hparse, first, more, program, hsplit, hprogram, hstuck, hindex, ?_⟩
  exact fun again hmem => congrArg Prod.fst (hagain 3 again hmem)

/-- A statement can be spelled at the token of the error: `times 3 db 1` is one, and yet
the error is not at the comma behind it. -/
theorem Parser.parse_error_at_statement :
    ∃ e, (ofTokens repeatedData true).parse.1 = .error e ∧
      ¬ ∃ first more program, repeatedData = first ++ e.token :: more ∧
        (ofTokens first true).parse.1 = .ok program ∧
        ∀ used rest s, e.token :: more = used ++ rest → ¬ Grammar.Stmt used s := by
  refine ⟨⟨repetition⟩, parse_repeatedData true, ?_⟩
  rintro ⟨first, more, program, hsplit, -, hnone⟩
  have hitems : Grammar.Stmt (repeatedData.drop 1 |>.take 4) _ :=
    .times ⟨rfl, rfl⟩ rfl (.data ⟨rfl, rfl⟩ (.last rfl))
  -- The token stands at one place only, so there is no other way to split the tokens.
  have hlength : first.length = 1 := by
    have hget : repeatedData[first.length]? = some repetition := by
      rw [hsplit, List.getElem?_append_right (Nat.le_refl _), Nat.sub_self]
      rfl
    have hplaces : ∀ i < repeatedData.length, repeatedData[i]? = some repetition → i = 1 := by
      decide
    exact hplaces _ (List.getElem?_eq_some_iff.mp hget).1 hget
  have hrest : repetition :: more = repeatedData.drop 1 := by
    rw [hsplit, ← hlength, List.drop_left]
  exact hnone _ (repeatedData.drop 5) _ (by rw [hrest]; rfl) hitems

end RegAsm
