/-
RegAsm.Proofs.Quotation — what is quoted is read again, whatever follows.

Texts and characters are escaped by one table and read by another, and a literal
may hold no line feed and no quote as it is.  The two tables fit: a quoted text is
the first token of every source that starts with it, whatever the text is, and the
same is true of a quoted character.  What follows is read as if it stood alone, only
that its first line starts further to the right (`readsFirst_quoted`).

1. Places moved to the right.
2. A first token, and the text behind it.
3. Quoted texts and characters.
-/
import Mathlib
import RegAsm.Proofs.Lines

namespace RegAsm

open Recognizer
open Source (Position)

/-! ## 1. Places moved to the right -/

/-- The place some columns further to the right, if it is on the first line. -/
def Source.Position.right (n : Nat) (p : Position) : Position :=
  if p.line = 1 then { p with column := p.column + n } else p

/-- The token some columns further to the right, if it is on the first line. -/
def Token.right (n : Nat) (t : Token) : Token := { t with pos := t.pos.right n }

/-- Behind a line feed nothing is moved any more. -/
theorem Source.Position.next_right (n : Nat) {p : Position} (h : 1 ≤ p.line) (endsLine : Bool) :
    (p.next endsLine).right n = (p.right n).next endsLine := by
  obtain ⟨line, column⟩ := p
  simp only at h
  cases endsLine with
  | true =>
    have hbelow : ¬ line + 1 = 1 := by omega
    by_cases hline : line = 1 <;> simp [Position.next, Position.right, hbelow, hline]
  | false =>
    by_cases hline : line = 1 <;>
      simp [Position.next, Position.right, hline, Int.add_right_comm]

/-- The places of a text can be moved to the right. -/
def Source.Shift.right (n : Nat) : Source.Shift where
  place := Position.right n
  Domain p := 1 ≤ p.line
  domain_next {p} endsLine h := by
    cases endsLine with
    | true => exact Int.le_trans h (Int.le_add_one (Int.le_refl _))
    | false => exact h
  place_next endsLine h := Position.next_right n h endsLine

/-! ## 2. A first token -/

/-- A text without line feeds stays on the first line. -/
theorem placeOf_behind {a : List Char} (h : '\n' ∉ a) (b : List Char) :
    placeOf (a ++ b) a.length = Position.start.right a.length := by
  have hall : ∀ c ∈ a.reverse, decide (c ≠ '\n') = true := by
    intro c hc
    rw [decide_eq_true_eq]
    rintro rfl
    exact h (List.mem_reverse.mp hc)
  rw [placeOf, List.take_left, List.count_eq_zero_of_not_mem h, List.takeWhile_eq_self_iff.mpr hall]
  simp [Position.start, Position.right]

theorem Lexer.displaced_behind {a : List Char} (h : '\n' ∉ a) (b : List Char) :
    Displaced (.right a.length) ((ofText (a ++ b) language).moved a.length)
      (ofText b language) := by
  have hat := (at_ofText (a ++ b) languageRules).moved (n := a.length) (by simp)
  rw [Nat.zero_add] at hat
  have hrest : (a ++ b).drop a.length = b := List.drop_left
  exact ⟨hat.rest.trans hrest, hat.pos.trans (placeOf_behind h b), Int.le_refl 1, hat.lines, rfl,
    rfl⟩

/-- A text is the first token of every source that starts with it: the lexer goes over
the text and faces what follows, and its other tokens are those of what follows, with
the first line moved to the right. -/
def ReadsFirst (text : String) (token : Token) : Prop :=
  ∀ rest : String,
    (∃ l : Lexer, (Lexer.ofSource (text ++ rest)).next = ({ token with pos := .start }, l) ∧
      l.cursor.rest = rest.toList ∧ l.done = false) ∧
    tokenize (text ++ rest) =
      { token with pos := .start } :: (tokenize rest).map (Token.right text.length)

/-- A text without line feeds is read first if the rules say so first. -/
theorem readsFirst_of_firstMatch? {text : String} {token : Token} (hlines : '\n' ∉ text.toList)
    (hkind : token.kind ≠ .whitespace)
    (hfirst : ∀ rest, firstMatch? assembly (text.toList ++ rest) =
      some (token, text.toList.length)) : ReadsFirst text token := by
  intro rest
  have hsource : Lexer.ofSource (text ++ rest) =
      Lexer.ofText (text.toList ++ rest.toList) Lexer.language := by
    rw [Lexer.ofSource, String.toList_append]
  have hdisplaced := Lexer.displaced_behind hlines rest.toList
  have hne : text.toList ++ rest.toList ≠ [] := by
    have hpos := firstMatch?_taken_pos (hfirst rest.toList)
    exact List.append_ne_nil_of_left_ne_nil (List.ne_nil_of_length_pos hpos) _
  have hnext : (Lexer.ofText (text.toList ++ rest.toList) Lexer.language).next = _ :=
    Lexer.next_token (hfirst rest.toList) hkind hne
  rw [hsource, tokenize, hsource]
  refine ⟨⟨_, hnext, hdisplaced.rest, rfl⟩, ?_⟩
  rw [Lexer.all_of_next rfl hnext, hdisplaced.all]
  rfl

/-! ## 3. Quoted texts and characters -/

/-- A character as a literal. -/
def Token.quoteChar (c : Char) : String := String.ofList ('\'' :: (escapeChar c ++ ['\'']))

theorem lineFeed_notMem_escapeChar (c : Char) : '\n' ∉ Token.escapeChar c := by
  obtain ⟨e, hescape, hunescape⟩ | ⟨hescape, hne, -⟩ := escapeChar_cases c
  · have he : e ≠ '\n' := by
      rintro rfl
      cases hunescape
    rw [hescape]
    simp [he.symm]
  · rw [hescape]
    simpa using hne.symm

theorem lineFeed_notMem_quote (s : String) : '\n' ∉ (Token.quote s).toList := by
  have hescape : '\n' ∉ Token.escape s.toList := by
    intro h
    obtain ⟨c, -, hc⟩ := List.mem_flatMap.mp h
    exact lineFeed_notMem_escapeChar c hc
  simp [Token.quote, hescape]

/-- Every quoted text is read as a string with that text, and every quoted character as
a number with the value of that character, whatever follows; and what follows is read
from its first character on. -/
theorem readsFirst_quoted (s : String) (r : Char) :
    ReadsFirst (Token.quote s) { kind := .string, text := s } ∧
      ReadsFirst (Token.quoteChar r)
        { kind := .number, text := Token.quoteChar r, value := r.val } := by
  constructor
  · exact readsFirst_of_firstMatch? (lineFeed_notMem_quote s) TokenKind.noConfusion
      (firstMatch?_quote s)
  · have htext : (Token.quoteChar r).toList = '\'' :: (Token.escapeChar r ++ ['\'']) := by
      rw [Token.quoteChar, String.toList_ofList]
    have hlines : '\n' ∉ (Token.quoteChar r).toList := by
      simp [htext, lineFeed_notMem_escapeChar r]
    refine readsFirst_of_firstMatch? hlines TokenKind.noConfusion fun rest => ?_
    rw [htext]
    exact firstMatch?_character r rest

end RegAsm
