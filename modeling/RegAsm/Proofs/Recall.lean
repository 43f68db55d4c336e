/-
RegAsm.Proofs.Recall — a parser that remembers reads what one that forgets
reads.

What a parser has remembered outlives the productions that failed around it,
and also the calls that ended with an error, so a later call finds entries that
earlier ones left behind.  A parser that remembers goes side by side with one
that forgets as long as all it remembers was really read (`Abreast`): a call
gives both the same result and leaves them side by side again
(`abreast_parse`).  So it is for any number of calls, and no product is ever
asked for as something that it is not (`calls_remembering`).

1. Parsers side by side.
2. Calls in a row.
-/
import Mathlib
import RegAsm.Proofs.Grammar

namespace RegAsm

open Machine

namespace Parser

/-! ## 1. Side by side -/

/-- Two parsers stand at the same place of a stream; all that the first
remembers was read from that stream, and the second has never remembered
anything. -/
structure Abreast (base : TokenStream) (p p' : Parser) : Prop where
  place : ∃ ts, ts <:+ base.rest ∧ p.stream = base.ahead ts
  stream : p'.stream = p.stream
  memo : p.memo.Faithful base
  forgetful : p'.memo = .empty false

/-- Parsers side by side read the same statements. -/
theorem abreast_statements {base : TokenStream} (heof : base.eof.kind = .eof) {bound n : Nat}
    {ts : List Token} {memo : Memo} (hts : ts <:+ base.rest) (hbound : ts.length ≤ bound)
    (hmemo : memo.Faithful base) (acc : Array Statement) :
    (statements bound acc n ⟨base.ahead ts, .empty false⟩).1 =
        (statements bound acc n ⟨base.ahead ts, memo⟩).1 ∧
      Abreast base (statements bound acc n ⟨base.ahead ts, memo⟩).2
        (statements bound acc n ⟨base.ahead ts, .empty false⟩).2 := by
  induction n generalizing ts memo acc with
  | zero => exact ⟨rfl, ⟨ts, hts, rfl⟩, rfl, hmemo, rfl⟩
  | succ n ih =>
    rw [statements, statements]
    by_cases hkind : (base.ahead ts).token.kind = .eof
    · rw [if_pos hkind, if_pos hkind]
      exact ⟨rfl, ⟨ts, hts, rfl⟩, rfl, hmemo, rfl⟩
    · rw [if_neg hkind, if_neg hkind]
      -- What a statement is depends on the tokens ahead alone.
      obtain ⟨hsuffix, after, hafter, hrun⟩ :=
        Production.regular_statement bound base memo ts heof hmemo hts hbound
      obtain ⟨-, after', hafter', hrun'⟩ :=
        Production.regular_statement bound base (.empty false) ts heof
          (Memo.faithful_empty _ _) hts hbound
      have hidle : after' = .empty false := hafter'.idle rfl
      subst hidle
      simp only [hrun, hrun']
      cases hon : (Production.statement bound).on base.eof ts with
      | none => exact ⟨rfl, ⟨ts, hts, rfl⟩, rfl, hafter.faithful, rfl⟩
      | some r =>
        obtain ⟨s, rest⟩ := r
        have hrest : rest <:+ ts := hsuffix s rest hon
        exact ih (hrest.trans hts) (Nat.le_trans hrest.length_le hbound) hafter.faithful _

/-- A call gives parsers side by side the same result and leaves them side by
side. -/
theorem abreast_parse {base : TokenStream} (heof : base.eof.kind = .eof) {p p' : Parser}
    (h : Abreast base p p') :
    p'.parse.1 = p.parse.1 ∧ Abreast base p.parse.2 p'.parse.2 := by
  obtain ⟨⟨ts, hts, hplace⟩, hstream, hmemo, hforgetful⟩ := h
  obtain ⟨stream, memo⟩ := p
  obtain ⟨stream', memo'⟩ := p'
  simp only at hplace hstream hmemo hforgetful
  subst hstream
  subst hplace
  subst hforgetful
  have hlength : (base.ahead ts).cursor.rest.length = ts.length :=
    congrArg List.length (TokenStream.rest_ahead hts)
  obtain ⟨hresult, habreast⟩ := abreast_statements heof (n := ts.length + 1) hts
    (Nat.le_succ ts.length) hmemo #[]
  simp only [parse, hlength]
  exact ⟨congrArg (Except.map Array.toList) hresult, habreast⟩

/-! ## 2. Calls in a row -/

/-- What some calls in a row give: for each of them its result, and the parser
that it leaves behind. -/
def calls : Nat → Parser → List (Except ParseError (List Statement) × Parser)
  | 0, _ => []
  | n + 1, p => p.parse :: calls n p.parse.2

/-- What a call shows: its result, and where it leaves the stream. -/
def shown (call : Except ParseError (List Statement) × Parser) :
    Except ParseError (List Statement) × TokenStream := (call.1, call.2.stream)

/-- Calls of parsers side by side show the same, and leave the two side by side
each time: what the first remembers was read, and the second remembers nothing. -/
theorem abreast_calls {base : TokenStream} (heof : base.eof.kind = .eof) (n : Nat)
    {p p' : Parser} (h : Abreast base p p') :
    (p.calls n).map shown = (p'.calls n).map shown ∧
      (∀ call ∈ p.calls n, call.2.memo.Faithful base) ∧
      ∀ call ∈ p'.calls n, call.2.memo = .empty false := by
  induction n generalizing p p' with
  | zero => exact ⟨rfl, List.forall_mem_nil _, List.forall_mem_nil _⟩
  | succ n ih =>
    obtain ⟨hresult, hcall⟩ := abreast_parse heof h
    obtain ⟨hshown, hmemos, hempty⟩ := ih hcall
    have hfirst : shown p.parse = shown p'.parse := Prod.ext hresult.symm hcall.stream.symm
    refine ⟨?_, List.forall_mem_cons.mpr ⟨hcall.memo, hmemos⟩,
      List.forall_mem_cons.mpr ⟨hcall.forgetful, hempty⟩⟩
    rw [calls, calls, List.map_cons, List.map_cons, hfirst, hshown]

/-- Parsers of the same tokens start side by side. -/
theorem abreast_ofTokens (tokens : List Token) (remembers : Bool) :
    Abreast (.ofTokens tokens) (ofTokens tokens remembers) (ofTokens tokens false) :=
  ⟨⟨_, List.suffix_refl _, (TokenStream.ahead_rest _).symm⟩, rfl, Memo.faithful_empty _ _, rfl⟩

end Parser

/-- A named production that remembers nothing is the production itself: it is
tried, and if it fails the stream is where it was. -/
theorem Production.capture_of_forgetful {α : Type} [Memorable α] (rule : Rule)
    (p : Production α) (s : TokenStream) {memo : Memo} (h : memo.enabled = false)
    (hp : (p s memo).2.enabled = false) : capture rule p s memo = p s memo := by
  have hfind : memo.find? s.cursor.index rule = none := by
    rw [Memo.find?, h, if_neg Bool.false_ne_true]
  simp only [capture, hfind]
  generalize p s memo = r at hp
  obtain ⟨result, after⟩ := r
  cases result with
  | none => rfl
  | some r =>
    have hremember : ∀ product stop, after.remember s.cursor.index rule product stop = after := by
      intro product stop
      rw [Memo.remember, hp, if_neg Bool.false_ne_true]
    simp only [hremember]

/-- However often a parser is called, it gives the same results, and leaves its
stream at the same places, whether it remembers what it reads or not; and what it
remembers is always of the kind that is asked for.  A parser that does not
remember never has anything in its memory, and tries each production by itself. -/
theorem Parser.calls_remembering (tokens : List Token) (n : Nat) :
    ((ofTokens tokens true).calls n).map shown = ((ofTokens tokens false).calls n).map shown ∧
    (∀ call ∈ (ofTokens tokens true).calls n, call.2.memo.misfits = 0) ∧
    (∀ call ∈ (ofTokens tokens false).calls n, call.2.memo = .empty false) ∧
    ∀ (α : Type) [Production.Memorable α] (rule : Rule) (p : Production α) (s : TokenStream)
      (memo : Memo), memo.enabled = false → (p s memo).2.enabled = false →
        Production.capture rule p s memo = p s memo := by
  obtain ⟨hshown, hmemos, hempty⟩ := abreast_calls (Parser.ofTokens_spec tokens).1 n
    (abreast_ofTokens tokens true)
  refine ⟨hshown, fun call hcall => (hmemos call hcall).fits, hempty, ?_⟩
  intro α _ rule p s memo h hp
  exact Production.capture_of_forgetful rule p s h hp

end RegAsm
