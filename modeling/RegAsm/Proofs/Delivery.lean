/-
RegAsm.Proofs.Delivery — every token is delivered once, however it is asked for.

A lexer can be asked for its next token, for some tokens or for all that are left,
and the requests can be mixed.  They share one cursor and one note that the end was
reported, so each of them takes off the front of the same list: the tokens that the
lexer would deliver if it were asked for all of them at once.  Once the end token is
out there is nothing left, and only a request for the next token gets it again.

1. Requests.
2. The tokens that are left.
3. One request.
4. Any requests in a row.
-/
import Mathlib
import RegAsm.Proofs.Partition

namespace RegAsm

open Source (Cursor)

/-! ## 1. Requests -/

/-- A way of asking for tokens. -/
inductive Request where
  /-- The next token. -/
  | next
  /-- All tokens that are left. -/
  | all
  /-- Tokens one by one, stopping after `n` of them. -/
  | take (n : Nat)
  deriving DecidableEq, Repr

/-- What a request gets from a lexer, and the lexer after it. -/
def Lexer.deliver : Request → Lexer → List Token × Lexer
  | .next, l => ([l.next.1], l.next.2)
  | .all, l => l.all
  | .take n, l => l.take n

/-- What requests get from a lexer, one after the other. -/
def Lexer.deliveries : List Request → Lexer → List (List Token)
  | [], _ => []
  | q :: qs, l => (l.deliver q).1 :: deliveries qs (l.deliver q).2

namespace Request

/-- What a request takes off a list of tokens, and what is left of it.  When nothing is
left, the next token is the end token again. -/
def draw (finish : Token) : Request → List Token → List Token × List Token
  | .next, [] => ([finish], [])
  | .next, t :: left => ([t], left)
  | .all, left => (left, [])
  | .take n, left => (left.take n, left.drop n)

/-- What requests take off a list of tokens, one after the other. -/
def draws (finish : Token) : List Request → List Token → List (List Token)
  | [], _ => []
  | q :: qs, left => (q.draw finish left).1 :: draws finish qs (q.draw finish left).2

/-- What a request gets when nothing is left. -/
def repeats (finish : Token) : Request → List Token
  | .next => [finish]
  | _ => []

theorem draw_nil (finish : Token) (q : Request) : q.draw finish [] = (q.repeats finish, []) := by
  cases q <;> simp [draw, repeats]

theorem draws_nil (finish : Token) (qs : List Request) :
    draws finish qs [] = qs.map (repeats finish) := by
  induction qs with
  | nil => rfl
  | cons q qs ih => simp [draws, draw_nil, ih]

theorem flatten_map_repeats (finish : Token) (qs : List Request) :
    (qs.map (repeats finish)).flatten = List.replicate (qs.count .next) finish := by
  induction qs with
  | nil => rfl
  | cons q qs ih => cases q <;> simp [repeats, ih, List.replicate_succ]

/-- As long as something is left, a request takes it off the front. -/
theorem draw_append (finish : Token) (q : Request) {left : List Token} (h : left ≠ []) :
    (q.draw finish left).1 ++ (q.draw finish left).2 = left := by
  cases q with
  | next =>
    obtain ⟨t, rest, rfl⟩ := List.exists_cons_of_ne_nil h
    simp [draw]
  | all => simp [draw]
  | take n => simp [draw]

/-- Requests are served from the list until it is used up, and by repetition from
then on. -/
theorem draws_split (finish : Token) (qs : List Request) (left : List Token) :
    ∃ before after, qs = before ++ after ∧
      (draws finish before left).flatten <+: left ∧
      (after ≠ [] → (draws finish before left).flatten = left) ∧
      draws finish qs left = draws finish before left ++ after.map (repeats finish) := by
  induction qs generalizing left with
  | nil => exact ⟨[], [], rfl, List.nil_prefix, fun h => absurd rfl h, rfl⟩
  | cons q qs ih =>
    by_cases hleft : left = []
    · subst hleft
      exact ⟨[], q :: qs, rfl, List.nil_prefix, fun _ => rfl, draws_nil finish _⟩
    · have hsplit := draw_append finish q hleft
      obtain ⟨before, after, rfl, hfront, hwhole, hdraws⟩ := ih (q.draw finish left).2
      refine ⟨q :: before, after, rfl, ?_, ?_, ?_⟩
      · rw [draws, List.flatten_cons]
        conv_rhs => rw [← hsplit]
        exact (List.prefix_append_right_inj _).mpr hfront
      · intro hafter
        rw [draws, List.flatten_cons, hwhole hafter, hsplit]
      · rw [draws, hdraws, draws, List.cons_append]

end Request

/-! ## 2. The tokens that are left -/

namespace Lexer

variable {l : Lexer}

/-- The end token that a lexer comes to: the last one that is left or, when none is,
the one that it gives again and again. -/
def EndsWith (finish : Token) (l : Lexer) : Prop :=
  if l.done then l.next = (finish, l) else l.all.1.getLast? = some finish

/-- The end is noted only where no text is left, and with the end token. -/
theorem next_of_done (hdone : l.done = false) (h : l.next.2.done = true) :
    l.next.2.cursor.rest = [] ∧ l.next.1 = { kind := .eof, pos := l.next.2.cursor.pos } := by
  unfold next at h ⊢
  cases hrest : (l.cursor.advance (blankLength l.recognizers 0 0 l.cursor.rest)).rest with
  | nil => simp [hrest]
  | cons c tail =>
    simp only [hrest] at h
    cases hmatch : Recognizer.firstMatch? l.recognizers (c :: tail) <;>
      simp [hmatch, hdone] at h

/-- The end token is given again and again. -/
theorem next_again (hdone : l.done = false) (h : l.next.2.done = true) :
    l.next.2.next = (l.next.1, l.next.2) := by
  obtain ⟨hrest, htoken⟩ := next_of_done hdone h
  have hsame : { l.next.2 with done := true } = l.next.2 := by rw [← h]
  rw [next_end hrest, htoken, hsame]

theorem EndsWith.next {finish : Token} (h : EndsWith finish l) (hdone : l.done = false) :
    EndsWith finish l.next.2 := by
  rw [EndsWith, hdone, if_neg Bool.false_ne_true, all_succ hdone] at h
  cases hnext : l.next.2.done with
  | true =>
    rw [all_done hnext] at h
    obtain rfl : l.next.1 = finish := by simpa using h
    rw [EndsWith, if_pos hnext, next_again hdone hnext]
  | false =>
    rw [EndsWith, hnext, if_neg Bool.false_ne_true]
    rw [all_succ hnext] at h ⊢
    simpa using h

/-! ## 3. One request -/

/-- A request is served from the tokens that are left. -/
structure Serves (finish : Token) (q : Request) (l : Lexer) : Prop where
  got : (l.deliver q).1 = (q.draw finish l.all.1).1
  left : (l.deliver q).2.all.1 = (q.draw finish l.all.1).2
  ends : EndsWith finish (l.deliver q).2

theorem serves_take {finish : Token} (h : EndsWith finish l) (n : Nat) :
    Serves finish (.take n) l := by
  suffices hparts : (l.take n).1 = l.all.1.take n ∧ (l.take n).2.all.1 = l.all.1.drop n ∧
      EndsWith finish (l.take n).2 from ⟨hparts.1, hparts.2.1, hparts.2.2⟩
  induction n generalizing l with
  | zero => exact ⟨rfl, rfl, h⟩
  | succ n ih =>
    cases hdone : l.done with
    | true => simp [take_done hdone, all_done hdone, h]
    | false =>
      obtain ⟨hgot, hleft, hends⟩ := ih (h.next hdone)
      rw [take_succ hdone, all_succ hdone, List.take_succ_cons, List.drop_succ_cons]
      exact ⟨congrArg _ hgot, hleft, hends⟩

theorem serves_next {finish : Token} (h : EndsWith finish l) : Serves finish .next l := by
  cases hdone : l.done with
  | true =>
    have hnext : l.next = (finish, l) := by rwa [EndsWith, if_pos hdone] at h
    constructor <;> simp [deliver, hnext, all_done hdone, Request.draw, h]
  | false =>
    constructor
    · simp [deliver, all_succ hdone, Request.draw]
    · simp [deliver, all_succ hdone, Request.draw]
    · exact h.next hdone

theorem serves_all {finish : Token} (h : EndsWith finish l) : Serves finish .all l := by
  obtain ⟨hgot, hleft, hends⟩ := serves_take h (l.cursor.rest.length + 1)
  -- To ask for all is to ask for as many as there can be: what was taken is all there was.
  have htake : l.all.1 = l.all.1.take (l.cursor.rest.length + 1) := hgot
  have hbound : l.all.1.length ≤ l.cursor.rest.length + 1 := by
    rw [htake]
    exact List.length_take_le _ _
  have hdrop : l.all.2.all.1 = l.all.1.drop (l.cursor.rest.length + 1) := hleft
  refine ⟨rfl, ?_, hends⟩
  show l.all.2.all.1 = []
  rw [hdrop, List.drop_eq_nil_of_le hbound]

theorem serves {finish : Token} (q : Request) (h : EndsWith finish l) : Serves finish q l := by
  cases q with
  | next => exact serves_next h
  | all => exact serves_all h
  | take n => exact serves_take h n

/-! ## 4. Any requests in a row -/

theorem deliveries_eq_draws {finish : Token} (qs : List Request) (h : EndsWith finish l) :
    l.deliveries qs = Request.draws finish qs l.all.1 := by
  induction qs generalizing l with
  | nil => rfl
  | cons q qs ih =>
    obtain ⟨hgot, hleft, hends⟩ := serves q h
    rw [deliveries, Request.draws, hgot, ih hends, hleft]

/-- The end token of a fresh lexer stands behind the text, and no other token is like
it. -/
theorem all_ofText (text : List Char) (rules : List LexRule) :
    ∃ tokens, (ofText text (rules.map LexRule.recognizer)).all.1 = tokens ++ [endOf text] ∧
      ∀ t ∈ tokens, t.kind ≠ .eof := by
  obtain ⟨tokens, spans, gaps, htokens, -, hpart⟩ :=
    completes_takeOnto (at_ofText text rules) (n := text.length + 1) (by omega) #[]
  exact ⟨tokens, htokens, hpart.kind_ne⟩

/-- Every token is delivered once, however the tokens are asked for.  Whatever a fresh
lexer is asked for, one request after the other, it delivers what the requests take off
the list of all its tokens.  Up to some request these are a prefix of the list; from
there on the list is used up, the end token included, and only a request for the next
token gets anything, namely the end token again. -/
theorem deliveries_ofText (text : List Char) (rules : List LexRule) (requests : List Request) :
    let fresh := ofText text (rules.map LexRule.recognizer)
    fresh.deliveries requests = Request.draws (endOf text) requests fresh.all.1 ∧
    (∃ tokens, fresh.all.1 = tokens ++ [endOf text] ∧ ∀ t ∈ tokens, t.kind ≠ .eof) ∧
    ∃ before after, requests = before ++ after ∧
      (fresh.deliveries before).flatten <+: fresh.all.1 ∧
      (after ≠ [] → (fresh.deliveries before).flatten = fresh.all.1) ∧
      fresh.deliveries requests =
        fresh.deliveries before ++ after.map (Request.repeats (endOf text)) ∧
      (fresh.deliveries requests).flatten = (fresh.deliveries before).flatten ++
        List.replicate (after.count .next) (endOf text) := by
  intro fresh
  obtain ⟨tokens, htokens, hkinds⟩ := all_ofText text rules
  have hends : EndsWith (endOf text) fresh := by
    show fresh.all.1.getLast? = some (endOf text)
    rw [htokens, List.getLast?_concat]
  obtain ⟨before, after, rfl, hfront, hwhole, hdraws⟩ :=
    Request.draws_split (endOf text) requests fresh.all.1
  refine ⟨deliveries_eq_draws _ hends, ⟨tokens, htokens, hkinds⟩, before, after, rfl, ?_⟩
  simp only [deliveries_eq_draws _ hends]
  refine ⟨hfront, hwhole, hdraws, ?_⟩
  rw [hdraws, List.flatten_append, Request.flatten_map_repeats]

end Lexer

end RegAsm
