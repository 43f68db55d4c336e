/-
RegAsm.Proofs.Lines — the tokens of a text, line by line.

No rule of the assembly language but the one for white space looks past a line
feed: in front of one, a rule answers as if the text ended there
(`Recognizer.LineLocal`).  This holds also where a rule went some way before it
refused, as over a string without its closing quote.  So a line feed cuts a text
in two parts with tokens of their own, and the places in the second part are
moved down by the lines of the first (`tokenize_append_line`).

1. Rules in front of a line feed.
2. The tokens of a lexer.
3. Two parts of a text.
4. Places moved.
5. Whole texts.
-/
import Mathlib
import RegAsm.Proofs.Canonical
import RegAsm.Text.Utf8

namespace RegAsm

open Machine
open Source (Cursor Position)

/-! ## 1. Rules in front of a line feed -/

/-- Two answers count for the same: they are equal, or both refuse. -/
def Attempt.Matches (a a' : Attempt) : Prop := a = a' ∨ (a.accepted = false ∧ a'.accepted = false)

theorem Attempt.matches_refuse (m n : Nat) : Matches (.refuse m) (.refuse n) := .inr ⟨rfl, rfl⟩

namespace Recognizer

/-- A rule answers in front of a line feed as if the text ended there. -/
def LineLocal (r : Recognizer) : Prop :=
  ∀ x b : List Char, x ≠ [] → (r (x ++ '\n' :: b)).Matches (r x)

theorem LineLocal.match?_eq {r : Recognizer} (h : r.LineLocal) {x : List Char} (hx : x ≠ [])
    (b : List Char) : r.match? (x ++ '\n' :: b) = r.match? x := by
  have hne : x.isEmpty = false := by simpa using hx
  rcases h x b hx with heq | ⟨hleft, hright⟩
  · simp [match?, heq, hne]
  · simp [match?, hleft, hright]

theorem takeWhile_line {p : Char → Bool} (hp : p '\n' = false) (x b : List Char) :
    (x ++ '\n' :: b).takeWhile p = x.takeWhile p := by
  rw [List.takeWhile_append]
  split
  · rename_i hlen
    rw [List.takeWhile_cons_of_neg (by rw [hp]; exact Bool.false_ne_true), List.append_nil,
      (List.takeWhile_prefix p).eq_of_length hlen]
  · rfl

theorem lineLocal_comment (lead : Char) : LineLocal (comment lead) := by
  intro x b hx
  obtain ⟨c, rest, rfl⟩ := List.exists_cons_of_ne_nil hx
  have hrun : (c :: (rest ++ '\n' :: b)).takeWhile (· ≠ '\n') =
      (c :: rest).takeWhile (· ≠ '\n') :=
    takeWhile_line (p := (· ≠ '\n')) (by simp) (c :: rest) b
  left
  rw [List.cons_append, comment, comment, hrun]

theorem lineLocal_identifier : LineLocal identifier := by
  intro x b hx
  obtain ⟨c, rest, rfl⟩ := List.exists_cons_of_ne_nil hx
  have hrun : (c :: (rest ++ '\n' :: b)).takeWhile isNameChar =
      (c :: rest).takeWhile isNameChar :=
    takeWhile_line (by decide +kernel) (c :: rest) b
  left
  rw [List.cons_append, identifier, identifier, hrun]

/-- A spelling without line feeds is found in front of one or not at all. -/
theorem behind?_line {same : Char → Char → Bool} {spelling : List Char}
    (h : ∀ c ∈ spelling, same '\n' c = false) (x b : List Char) :
    behind? same spelling (x ++ '\n' :: b) =
      (behind? same spelling x).map (· ++ '\n' :: b) := by
  induction spelling generalizing x with
  | nil => rfl
  | cons c spelling ih =>
    obtain ⟨hc, hspelling⟩ := List.forall_mem_cons.mp h
    cases x with
    | nil => simp [behind?, hc]
    | cons d x =>
      rw [List.cons_append, behind?, behind?]
      split
      · exact ih hspelling x
      · rfl

theorem endsName_line (x b : List Char) : endsName (x ++ '\n' :: b) = endsName x := by
  cases x with
  | nil =>
    have hfeed : isNameChar '\n' = false := by decide +kernel
    simp [endsName, hfeed]
  | cons c x => rfl

theorem entryAhead?_line {same : Char → Char → Bool} {bounded : Bool} {entries : List Entry}
    (h : ∀ e ∈ entries, ∀ c ∈ e.text, same '\n' c = false) (x b : List Char) :
    entryAhead? same bounded entries (x ++ '\n' :: b) = entryAhead? same bounded entries x := by
  unfold entryAhead?
  induction entries with
  | nil => rfl
  | cons e entries ih =>
    obtain ⟨he, hentries⟩ := List.forall_mem_cons.mp h
    rw [List.find?_cons, List.find?_cons, ih hentries, behind?_line he]
    cases behind? same e.text x with
    | none => rfl
    | some rest => simp only [Option.map_some, endsName_line]

theorem digits_line (base : Nat) (lead x b : List Char) :
    digits base lead (x ++ '\n' :: b) = digits base lead x := by
  have hdigit : isDigitOf base '\n' = false := rfl
  unfold digits
  rw [takeWhile_line hdigit]

/-- What is neither a backslash at the end nor one before a character is no
backslash. -/
theorem ne_backslash {c : Char} {rest : List Char} (hend : c = '\\' → rest = [] → False)
    (hmore : ∀ (e : Char) (tail : List Char), c = '\\' → rest = e :: tail → False) :
    c ≠ '\\' := by
  intro hc
  cases rest with
  | nil => exact hend hc rfl
  | cons e tail => exact hmore e tail hc rfl

theorem closeCharacter_line (c : Char) (taken : Nat) (x b : List Char) :
    (closeCharacter c taken (x ++ '\n' :: b)).Matches (closeCharacter c taken x) := by
  cases x with
  | nil => exact Attempt.matches_refuse _ _
  | cons q x => exact .inl rfl

/-- A character literal ends on its line. -/
theorem character_line (x b : List Char) :
    (character (x ++ '\n' :: b)).Matches (character x) := by
  fun_cases character x with
  | case1 => exact Attempt.matches_refuse _ _
  | case2 rest => exact Attempt.matches_refuse _ _
  | case3 rest => exact Attempt.matches_refuse _ _
  | case4 => exact Attempt.matches_refuse _ _
  | case5 e rest c hc =>
    rw [List.cons_append, List.cons_append, character, hc]
    exact closeCharacter_line c 3 rest b
  | case6 e rest hc =>
    rw [List.cons_append, List.cons_append, character, hc]
    exact Attempt.matches_refuse _ _
  | case7 c rest hquote hfeed hslash hescape =>
    have hplain : c ≠ '\\' := ne_backslash hslash hescape
    have hchar : character (c :: (rest ++ '\n' :: b)) = closeCharacter c 2 (rest ++ '\n' :: b) := by
      rw [character] <;> simp_all
    rw [List.cons_append, hchar]
    exact closeCharacter_line c 2 rest b

theorem lineLocal_number : LineLocal number := by
  intro x b hx
  obtain ⟨c, rest, rfl⟩ := List.exists_cons_of_ne_nil hx
  rw [List.cons_append, number, number, digits_line, ← List.cons_append, digits_line]
  split
  · exact .inl rfl
  · split
    · exact .inl rfl
    · split
      · exact character_line rest b
      · exact Attempt.matches_refuse _ _

/-- The contents of a string end on its line. -/
theorem stringBody_line (done : List Char) (taken : Nat) (x b : List Char) :
    (stringBody done taken (x ++ '\n' :: b)).Matches (stringBody done taken x) := by
  fun_induction stringBody done taken x with
  | case1 done taken => exact Attempt.matches_refuse _ _
  | case2 done taken rest => exact .inl rfl
  | case3 done taken rest => exact Attempt.matches_refuse _ _
  | case4 done taken => exact Attempt.matches_refuse _ _
  | case5 done taken e rest c hc ih =>
    rw [List.cons_append, List.cons_append, stringBody, hc]
    exact ih
  | case6 done taken e rest hc =>
    rw [List.cons_append, List.cons_append, stringBody, hc]
    exact Attempt.matches_refuse _ _
  | case7 done taken c rest hquote hfeed hslash hescape ih =>
    have hplain : c ≠ '\\' := ne_backslash hslash hescape
    have hbody : stringBody done taken (c :: (rest ++ '\n' :: b)) =
        stringBody (c :: done) (taken + 1) (rest ++ '\n' :: b) := by
      rw [stringBody] <;> simp_all
    rw [List.cons_append, hbody]
    exact ih

theorem lineLocal_string : LineLocal string := by
  intro x b hx
  obtain ⟨c, rest, rfl⟩ := List.exists_cons_of_ne_nil hx
  by_cases hc : c = '"'
  · subst hc
    exact stringBody_line [] 1 rest b
  · left
    rw [List.cons_append, string, string]
    all_goals grind

/-- A table that has no line feed in it. -/
theorem lineLocal_ofEntries {kind : TokenKind} {same : Char → Char → Bool} {bounded : Bool}
    {entries : List Entry}
    (h : (entries.all fun e => e.text.all fun c => !same '\n' c) = true) :
    LineLocal (ofEntries kind same bounded entries) := by
  intro x b _
  left
  rw [ofEntries, ofEntries, entryAhead?_line]
  intro e he c hc
  simpa using List.all_eq_true.mp (List.all_eq_true.mp h e he) c hc

theorem lineLocal_language {r : Recognizer} (h : r ∈ Lexer.language) : r.LineLocal := by
  simp only [Lexer.language, List.mem_cons, List.not_mem_nil, or_false] at h
  rcases h with rfl | rfl | rfl | rfl | rfl | rfl | rfl
  · exact lineLocal_comment ';'
  · exact lineLocal_ofEntries (by decide +kernel)
  · exact lineLocal_number
  · exact lineLocal_ofEntries (by decide +kernel)
  · exact lineLocal_ofEntries (by decide +kernel)
  · exact lineLocal_string
  · exact lineLocal_identifier

theorem firstMatch?_line {rs : List Recognizer} (h : ∀ r ∈ rs, r.LineLocal) {x : List Char}
    (hx : x ≠ []) (b : List Char) : firstMatch? rs (x ++ '\n' :: b) = firstMatch? rs x :=
  Production.findSome?_eq_of_forall_mem fun r hr => (h r hr).match?_eq hx b

end Recognizer

/-! ## 2. The tokens of a lexer -/

namespace Lexer

theorem all_congr {l l' : Lexer} (hdone : l.done = false) (hdone' : l'.done = false)
    (h : l.next = l'.next) : l.all.1 = l'.all.1 := by
  rw [all_succ hdone, all_succ hdone', h]

/-- White space is passed over one character at a time. -/
theorem next_blank {l : Lexer} {rs : List Recognizer} (hrs : l.recognizers = .blank :: rs)
    {c : Char} {rest : List Char} (hrest : l.cursor.rest = c :: rest)
    (hc : Text.isBlank c = true) : l.next = (l.moved 1).next := by
  have hstart : l.cursor.advance (blankLength l.recognizers 0 0 l.cursor.rest) =
      (l.cursor.advance 1).advance
        (blankLength l.recognizers 0 0 (l.cursor.advance 1).rest) := by
    rw [Cursor.rest_advance, hrs, hrest, blankLength_blank hc, Nat.add_comm, Cursor.advance_add]
    rfl
  unfold next moved
  simp only [hstart]

theorem all_ne_nil {l : Lexer} (hdone : l.done = false) : l.all.1 ≠ [] := by
  rw [all_succ hdone]
  exact List.cons_ne_nil _ _

theorem all_of_next {l : Lexer} (hdone : l.done = false) {t : Token} {n : Nat}
    (h : l.next = (t, l.moved n)) : l.all.1 = t :: (l.moved n).all.1 := by
  rw [all_succ hdone, h]

/-! ## 3. Two parts of a text -/

/-- The lexer with some other text ahead. -/
def facing (l : Lexer) (x : List Char) : Lexer :=
  { l with cursor := { l.cursor with rest := x } }

/-- Inside the first part of a text the second one does not matter. -/
theorem moved_facing {l : Lexer} {x y : List Char} (hrest : l.cursor.rest = x ++ y) {n : Nat}
    (hn : n ≤ x.length) : (l.facing x).moved n = (l.moved n).facing (x.drop n) := by
  induction n generalizing l x with
  | zero => rfl
  | succ n ih =>
    obtain ⟨⟨rest, index, pos, marks, endsLine⟩, rs, done⟩ := l
    cases x with
    | nil => simp at hn
    | cons c x =>
      obtain rfl : rest = c :: x ++ y := hrest
      exact @ih ⟨⟨x ++ y, index + 1, pos.next (endsLine c), marks, endsLine⟩, rs, done⟩ x rfl
        (Nat.le_of_succ_le_succ hn)

theorem moved_moved (l : Lexer) (m n : Nat) : (l.moved m).moved n = l.moved (m + n) := by
  rw [moved, moved, moved, Cursor.advance_add]

theorem rest_moved {l : Lexer} {x y : List Char} (hrest : l.cursor.rest = x ++ y) {n : Nat}
    (hn : n ≤ x.length) : (l.moved n).cursor.rest = x.drop n ++ y := by
  rw [moved, Cursor.rest_advance, hrest, List.drop_append_of_le_length hn]

/-- What a rule says first of the language, or the one for white space, inside
its text. -/
theorem firstMatch?_inside {x : List Char} {token : Token} {taken : Nat}
    (h : Recognizer.firstMatch? (.blank :: language) x = some (token, taken)) :
    0 < taken ∧ taken ≤ x.length := by
  obtain ⟨rule, -, hmatch⟩ := @exists_of_firstMatch? languageRules _ _ _ h
  exact (LexRule.match?_spec hmatch).2

/-- Where no white space stands, the rules answer in front of a line feed as if
the text ended there. -/
theorem firstMatch?_line {c : Char} (hc : Text.isBlank c = false) (x b : List Char) :
    Recognizer.firstMatch? (.blank :: language) (c :: x ++ '\n' :: b) =
      Recognizer.firstMatch? (.blank :: language) (c :: x) := by
  rw [List.cons_append, Recognizer.firstMatch?_cons_none (Recognizer.blank_refuse hc _),
    Recognizer.firstMatch?_cons_none (Recognizer.blank_refuse hc _), ← List.cons_append]
  exact Recognizer.firstMatch?_line (fun r => Recognizer.lineLocal_language)
    (List.cons_ne_nil c x) b

/-- The tokens of the text ahead are those of a first part of it, the end token
aside, and those behind that part and one more character. -/
def SplitsAfter (l : Lexer) (x : List Char) : Prop :=
  l.all.1 = (l.facing x).all.1.dropLast ++ (l.moved (x.length + 1)).all.1

section Steps

variable {l : Lexer} {x y : List Char} {n : Nat}

theorem SplitsAfter.of_moved (hrest : l.cursor.rest = x ++ y) (hn : n ≤ x.length)
    (h : SplitsAfter (l.moved n) (x.drop n)) :
    (l.moved n).all.1 =
      ((l.facing x).moved n).all.1.dropLast ++ (l.moved (x.length + 1)).all.1 := by
  rw [SplitsAfter, moved_moved, List.length_drop,
    show n + (x.length - n + 1) = x.length + 1 by omega] at h
  rw [moved_facing hrest hn]
  exact h

/-- White space at the front of the first part. -/
theorem splitsAfter_space (hdone : l.done = false) (hrest : l.cursor.rest = x ++ y)
    (hn : n ≤ x.length) (hnext : l.next = (l.moved n).next)
    (hfacing : (l.facing x).next = ((l.facing x).moved n).next)
    (h : SplitsAfter (l.moved n) (x.drop n)) : SplitsAfter l x := by
  have hleft : l.all.1 = (l.moved n).all.1 := all_congr hdone hdone hnext
  have hright : (l.facing x).all.1 = ((l.facing x).moved n).all.1 := all_congr hdone hdone hfacing
  rw [SplitsAfter, hleft, hright]
  exact h.of_moved hrest hn

/-- A token at the front of the first part. -/
theorem splitsAfter_token (hdone : l.done = false) (hrest : l.cursor.rest = x ++ y)
    (hn : n ≤ x.length) {t : Token} (hnext : l.next = (t, l.moved n))
    (hfacing : (l.facing x).next = (t, (l.facing x).moved n))
    (h : SplitsAfter (l.moved n) (x.drop n)) : SplitsAfter l x := by
  have hne : ((l.facing x).moved n).all.1 ≠ [] := all_ne_nil hdone
  rw [SplitsAfter, all_of_next hdone hnext, all_of_next (l := l.facing x) hdone hfacing,
    List.dropLast_cons_of_ne_nil hne, List.cons_append, h.of_moved hrest hn]

end Steps

/-- A line feed cuts the tokens of a text in two. -/
theorem splitsAfter_line {l : Lexer} (hrs : l.recognizers = .blank :: language)
    (hdone : l.done = false) {x b : List Char} (hrest : l.cursor.rest = x ++ '\n' :: b) :
    SplitsAfter l x := by
  induction hlen : x.length using Nat.strongRecOn generalizing l x with
  | ind len ih =>
    have hgo : ∀ n, 0 < n → n ≤ x.length → SplitsAfter (l.moved n) (x.drop n) := by
      intro n hpos hle
      exact ih (x.length - n) (by omega) (l := l.moved n) hrs hdone (rest_moved hrest hle)
        List.length_drop
    cases x with
    | nil =>
      have hend : (l.facing []).all.1 = [{ kind := .eof, pos := l.cursor.pos }] := by
        rw [all_succ (l := l.facing []) hdone, next_end rfl, all_done rfl]
        rfl
      rw [SplitsAfter, hend]
      exact all_congr hdone hdone (next_blank hrs hrest (by decide))
    | cons c x =>
      have hone : 1 ≤ (c :: x).length := Nat.succ_le_succ (Nat.zero_le _)
      cases hc : Text.isBlank c with
      | true =>
        exact splitsAfter_space hdone hrest hone (next_blank hrs hrest hc)
          (next_blank (l := l.facing (c :: x)) hrs rfl hc) (hgo 1 Nat.one_pos hone)
      | false =>
        have hfirst := firstMatch?_line hc x b
        rw [← hrest, ← hrs] at hfirst
        cases hmatch : Recognizer.firstMatch? l.recognizers (c :: x) with
        | none =>
          rw [hmatch] at hfirst
          exact splitsAfter_token hdone hrest hone (next_illegal hrest hfirst)
            (next_illegal (l := l.facing (c :: x)) rfl hmatch) (hgo 1 Nat.one_pos hone)
        | some r =>
          obtain ⟨token, taken⟩ := r
          rw [hmatch] at hfirst
          obtain ⟨hpos, hle⟩ := firstMatch?_inside (hrs ▸ hmatch)
          by_cases hkind : token.kind = .whitespace
          · have hinside : taken ≤ l.cursor.rest.length := by
              rw [hrest, List.length_append]
              omega
            exact splitsAfter_space hdone hrest hle (next_space hfirst hkind hinside)
              (next_space (l := l.facing (c :: x)) hmatch hkind hle) (hgo taken hpos hle)
          · have hne : l.cursor.rest ≠ [] := by
              rw [hrest]
              exact List.cons_ne_nil _ _
            exact splitsAfter_token hdone hrest hle (next_token hfirst hkind hne)
              (next_token (l := l.facing (c :: x)) hmatch hkind (List.cons_ne_nil _ _))
              (hgo taken hpos hle)

end Lexer

/-! ## 4. Places moved -/

/-- A way to move the places of a text that keeps step with reading. -/
structure Source.Shift where
  place : Position → Position
  /-- The places that it is for. -/
  Domain : Position → Prop
  domain_next : ∀ {p : Position} (endsLine : Bool), Domain p → Domain (p.next endsLine)
  place_next : ∀ {p : Position} (endsLine : Bool), Domain p →
    place (p.next endsLine) = (place p).next endsLine

/-- The token with its place moved. -/
def Token.shift (σ : Source.Shift) (t : Token) : Token := { t with pos := σ.place t.pos }

namespace Lexer

/-- Two lexers face the same text, the first one at the moved place of the second. -/
structure Displaced (σ : Source.Shift) (l l' : Lexer) : Prop where
  rest : l.cursor.rest = l'.cursor.rest
  pos : l.cursor.pos = σ.place l'.cursor.pos
  domain : σ.Domain l'.cursor.pos
  lines : l.cursor.endsLine = l'.cursor.endsLine
  recognizers : l.recognizers = l'.recognizers
  done : l.done = l'.done

variable {σ : Source.Shift} {l l' : Lexer}

theorem Displaced.moved (h : Displaced σ l l') (k : Nat) :
    Displaced σ (l.moved k) (l'.moved k) := by
  induction k generalizing l l' with
  | zero => exact h
  | succ k ih =>
    obtain ⟨⟨rest, index, pos, marks, endsLine⟩, rs, done⟩ := l
    obtain ⟨⟨rest', index', pos', marks', endsLine'⟩, rs', done'⟩ := l'
    obtain ⟨hrest, hpos, hdomain, hlines, hrs, hdone⟩ := h
    simp only at hrest hpos hdomain hlines hrs hdone
    subst hrest hpos hlines hrs hdone
    cases rest with
    | nil => exact ⟨rfl, rfl, hdomain, rfl, rfl, rfl⟩
    | cons c rest =>
      exact @ih ⟨⟨rest, index + 1, (σ.place pos').next (endsLine c), marks, endsLine⟩, rs, done⟩
        ⟨⟨rest, index' + 1, pos'.next (endsLine c), marks', endsLine⟩, rs, done⟩
        ⟨rfl, (σ.place_next (endsLine c) hdomain).symm, σ.domain_next (endsLine c) hdomain, rfl,
          rfl, rfl⟩

/-- What a lexer says where no white space stands. -/
def answer (l : Lexer) : Token × Lexer :=
  match l.cursor.rest with
  | [] => ({ kind := .eof, pos := l.cursor.pos }, { l with done := true })
  | c :: _ =>
    match Recognizer.firstMatch? l.recognizers l.cursor.rest with
    | some (token, taken) => ({ token with pos := l.cursor.pos }, l.moved taken)
    | none => ({ kind := .illegal, text := String.singleton c, pos := l.cursor.pos }, l.moved 1)

theorem next_eq_answer (l : Lexer) :
    l.next = (l.moved (blankLength l.recognizers 0 0 l.cursor.rest)).answer := rfl

theorem Displaced.answer (h : Displaced σ l l') :
    l.answer.1 = l'.answer.1.shift σ ∧ Displaced σ l.answer.2 l'.answer.2 := by
  rw [Lexer.answer, Lexer.answer, ← h.rest, ← h.recognizers, h.pos]
  cases l.cursor.rest with
  | nil => exact ⟨rfl, h.rest, h.pos, h.domain, h.lines, rfl, rfl⟩
  | cons c rest =>
    cases Recognizer.firstMatch? l.recognizers (c :: rest) with
    | none => exact ⟨rfl, h.moved 1⟩
    | some r => exact ⟨rfl, h.moved r.2⟩

/-- The next token is the same, at the moved place. -/
theorem Displaced.next (h : Displaced σ l l') :
    l.next.1 = l'.next.1.shift σ ∧ Displaced σ l.next.2 l'.next.2 := by
  rw [next_eq_answer, next_eq_answer, ← h.rest, ← h.recognizers]
  exact (h.moved _).answer

theorem Displaced.all (h : Displaced σ l l') : l.all.1 = l'.all.1.map (Token.shift σ) := by
  have hrun : ∀ (room : Nat) (before before' : Array Token) (l l' : Lexer), Displaced σ l l' →
      before.toList = before'.toList.map (Token.shift σ) →
      (takeOnto before room l).1.toList =
        (takeOnto before' room l').1.toList.map (Token.shift σ) := by
    intro room
    induction room with
    | zero => exact fun _ _ _ _ _ hbefore => hbefore
    | succ room ih =>
      intro before before' l l' h hbefore
      cases hdone : l.done with
      | true => rw [takeOnto_done hdone, takeOnto_done (h.done ▸ hdone)]; exact hbefore
      | false =>
        rw [takeOnto_succ hdone, takeOnto_succ (h.done ▸ hdone)]
        refine ih _ _ _ _ h.next.2 ?_
        simp [hbefore, h.next.1]
  have hall := hrun (l.cursor.rest.length + 1) #[] #[] l l' h rfl
  rw [Lexer.all, Lexer.all, take, take, ← h.rest]
  exact hall

end Lexer

/-- The place some lines further down. -/
def Source.Position.down (n : Nat) (p : Position) : Position := { p with line := p.line + n }

/-- The token some lines further down. -/
def Token.down (n : Nat) (t : Token) : Token := { t with pos := t.pos.down n }

theorem Source.Position.next_down (n : Nat) (p : Position) (endsLine : Bool) :
    (p.down n).next endsLine = (p.next endsLine).down n := by
  cases endsLine with
  | false => rfl
  | true => simp [Position.next, Position.down, Int.add_right_comm]

/-- Every place can be moved down. -/
def Source.Shift.down (n : Nat) : Source.Shift where
  place := Position.down n
  Domain _ := True
  domain_next _ h := h
  place_next endsLine _ := (Position.next_down n _ endsLine).symm

namespace Lexer

/-- Two lexers face the same text, the first one some lines further down. -/
structure Below (n : Nat) (l l' : Lexer) : Prop where
  rest : l.cursor.rest = l'.cursor.rest
  pos : l.cursor.pos = l'.cursor.pos.down n
  lines : l.cursor.endsLine = l'.cursor.endsLine
  recognizers : l.recognizers = l'.recognizers
  done : l.done = l'.done

theorem Below.all {n : Nat} {l l' : Lexer} (h : Below n l l') :
    l.all.1 = l'.all.1.map (Token.down n) := by
  have hdisplaced : Displaced (.down n) l l' :=
    ⟨h.rest, h.pos, trivial, h.lines, h.recognizers, h.done⟩
  exact hdisplaced.all

end Lexer

/-! ## 5. Whole texts -/

/-- Behind a text and a line feed a lexer stands at the start of a line. -/
theorem placeOf_line (a b : List Char) :
    placeOf (a ++ '\n' :: b) (a.length + 1) = Position.start.down (1 + a.count '\n') := by
  have htake : (a ++ '\n' :: b).take (a.length + 1) = a ++ ['\n'] := by
    simp [List.take_append]
  rw [placeOf, htake]
  simp [Position.start, Position.down, Int.add_comm]

theorem below_line (a b : List Char) :
    Lexer.Below (1 + a.count '\n')
      ((Lexer.ofText (a ++ '\n' :: b) Lexer.language).moved (a.length + 1))
      (Lexer.ofText b Lexer.language) := by
  have hat := (Lexer.at_ofText (a ++ '\n' :: b) languageRules).moved (n := a.length + 1) (by simp)
  rw [Nat.zero_add] at hat
  have hrest : (a ++ '\n' :: b).drop (a.length + 1) = b := by simp
  exact ⟨hat.rest.trans hrest, hat.pos.trans (placeOf_line a b), hat.lines, rfl, rfl⟩

namespace Text

theorem decodeFrom_done (done : List Char) (skip : Nat) (bytes : List UInt8) :
    decodeFrom done skip bytes = done.reverse ++ decodeFrom [] skip bytes := by
  induction bytes generalizing done skip with
  | nil => simp [decodeFrom]
  | cons b rest ih =>
    cases skip with
    | succ k => rw [decodeFrom, decodeFrom, ih]
    | zero =>
      rw [decodeFrom, decodeFrom]
      cases scalarAt? (b :: rest) with
      | none => simp only; rw [ih (replacement :: done), ih [replacement]]; simp
      | some r => simp only; rw [ih (_ :: done), ih [_]]; simp

theorem decodeFrom_skip {skip : Nat} {bytes : List UInt8} (h : skip ≤ bytes.length) :
    decodeFrom [] skip bytes = decode (bytes.drop skip) := by
  induction bytes generalizing skip with
  | nil => cases Nat.le_zero.mp h; rfl
  | cons b rest ih =>
    cases skip with
    | zero => rfl
    | succ k => exact ih (Nat.le_of_succ_le_succ h)

/-- A character lies inside the bytes it is read from. -/
theorem scalarAt?_width {bytes : List UInt8} {v width : Nat}
    (h : scalarAt? bytes = some (v, width)) : 0 < width ∧ width ≤ bytes.length := by
  revert h
  fun_cases scalarAt? bytes <;> intro h <;>
    simp only [Option.bind_eq_bind, Option.bind_eq_some_iff, Option.ite_none_right_eq_some,
      Option.some.injEq, Prod.mk.injEq, reduceCtorEq] at h <;>
    simp only [List.length_cons] <;> omega

/-- The first character of a byte string and what is behind it. -/
theorem decode_cons (b : UInt8) (rest : List UInt8) :
    decode (b :: rest) =
      match scalarAt? (b :: rest) with
      | some (v, width) => Char.ofNat v :: decode ((b :: rest).drop width)
      | none => replacement :: decode rest := by
  rw [decode, decodeFrom]
  cases h : scalarAt? (b :: rest) with
  | none => exact decodeFrom_done [replacement] 0 rest
  | some r =>
    obtain ⟨v, width⟩ := r
    obtain ⟨hpos, hle⟩ := scalarAt?_width h
    obtain ⟨k, rfl⟩ : ∃ k, width = k + 1 := ⟨width - 1, by omega⟩
    simp only [Nat.add_sub_cancel, List.drop_succ_cons]
    rw [decodeFrom_done, decodeFrom_skip (Nat.le_of_succ_le_succ hle)]
    rfl

/-- A line feed belongs to no other character. -/
theorem scalarAt?_line (x : UInt8) (rest b : List UInt8) :
    scalarAt? (x :: (rest ++ 10 :: b)) = scalarAt? (x :: rest) := by
  have hfeed : continuation? 10 = none := by decide
  -- A character has at most four bytes, so three bytes behind the first decide.
  rcases rest with _ | ⟨y, _ | ⟨z, _ | ⟨w, rest⟩⟩⟩ <;> rcases b with _ | ⟨p, _ | ⟨q, b⟩⟩ <;>
    simp only [scalarAt?, hfeed, List.cons_append, List.nil_append, Option.bind_eq_bind,
      Option.bind_none, Option.bind_fun_none, ite_self]

theorem decode_line (a b : List UInt8) : decode (a ++ 10 :: b) = decode a ++ '\n' :: decode b := by
  induction hlen : a.length using Nat.strongRecOn generalizing a with
  | ind len ih =>
    cases a with
    | nil => rw [List.nil_append, decode_cons]; rfl
    | cons x rest =>
      rw [List.cons_append, decode_cons, decode_cons, scalarAt?_line]
      cases h : scalarAt? (x :: rest) with
      | none =>
        simp only [List.cons_append]
        rw [ih rest.length (by simp at hlen; omega) rest rfl]
      | some r =>
        obtain ⟨v, width⟩ := r
        obtain ⟨hpos, hle⟩ := scalarAt?_width h
        simp only [List.cons_append]
        rw [← List.cons_append, List.drop_append_of_le_length hle,
          ih ((x :: rest).drop width).length (by rw [List.length_drop]; omega) _ rfl]

end Text

/-- Lexing is line-local.  The tokens of two texts with a line feed between
them are those of the first text, its end token aside, and those of the second
one, which stand as many lines further down as there are line feeds in front of
it.  A text that is given as bytes is cut at the same place. -/
theorem tokenize_append_line :
    (∀ a b : String, ∃ tokens e, tokenize a = tokens ++ [e] ∧ e.kind = .eof ∧
      (∀ t ∈ tokens, t.kind ≠ .eof) ∧
      tokenize (a ++ "\n" ++ b) =
        tokens ++ (tokenize b).map (Token.down (1 + a.toList.count '\n'))) ∧
    ∀ a b : List UInt8, Text.decode (a ++ 10 :: b) = Text.decode a ++ '\n' :: Text.decode b := by
  refine ⟨fun a b => ?_, Text.decode_line⟩
  obtain ⟨tokens, htokens, hkinds⟩ := tokenize_rereads a
  refine ⟨tokens, _, htokens, rfl, fun t ht => (hkinds t ht).1, ?_⟩
  have htext : (a ++ "\n" ++ b).toList = a.toList ++ '\n' :: b.toList := by simp
  have hsplit : Lexer.SplitsAfter (.ofText (a.toList ++ '\n' :: b.toList) Lexer.language)
      a.toList := Lexer.splitsAfter_line rfl rfl rfl
  have hfirst : (tokenize a).dropLast = tokens := by rw [htokens, List.dropLast_concat]
  rw [tokenize, Lexer.ofSource, htext, hsplit, (below_line a.toList b.toList).all, ← hfirst]
  rfl

end RegAsm
