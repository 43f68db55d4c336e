/-
RegAsm.Proofs.Scanning — the tokens of a text, their places aside.

`scan` gives the tokens of a text without saying where they stand, so that a
text can be cut in two and each part looked at on its own: `scan_blank` passes
over white space and `scan_token` takes one token off the front.  It is what
the lexer reads (`map_unplaced_all`), wherever in a text the lexer stands.

1. One token.
2. All tokens.
3. Taking a text apart.
-/
import RegAsm.Proofs.Cursor
import RegAsm.Token.Lexer

namespace RegAsm

open Source (Cursor Position)

/-- The token without its place. -/
def Token.unplaced (t : Token) : Token := { t with pos := .nowhere }

/-- The end token without its place. -/
def Token.finish : Token := { kind := .eof }

/-! ## 1. One token -/

/-- The first token of a text and the text behind it. -/
def nextOf (rs : List Recognizer) (text : List Char) : Option (Token × List Char) :=
  match text.drop (Lexer.blankLength rs 0 0 text) with
  | [] => none
  | c :: rest =>
    match Recognizer.firstMatch? rs (c :: rest) with
    | some (token, taken) => some (token.unplaced, (c :: rest).drop taken)
    | none => some ({ kind := .illegal, text := String.singleton c }, rest)

namespace Recognizer

/-- An answer that counts goes over at least one character. -/
theorem taken_pos {r : Recognizer} {text : List Char} {token : Token} {taken : Nat}
    (h : match? r text = some (token, taken)) : 0 < taken := by
  simp only [match?, Option.ite_none_right_eq_some, Bool.and_eq_true, decide_eq_true_eq] at h
  obtain ⟨⟨⟨-, hpos⟩, -⟩, heq⟩ := h
  cases heq
  exact hpos

theorem firstMatch?_taken_pos {rs : List Recognizer} {text : List Char} {token : Token}
    {taken : Nat} (h : firstMatch? rs text = some (token, taken)) : 0 < taken := by
  obtain ⟨r, -, hr⟩ := List.exists_of_findSome?_eq_some h
  exact taken_pos hr

end Recognizer

theorem length_of_nextOf {rs : List Recognizer} {text rest : List Char} {token : Token}
    (h : nextOf rs text = some (token, rest)) : rest.length < text.length := by
  unfold nextOf at h
  split at h
  · cases h
  · rename_i c tail hdrop
    have hlen : tail.length + 1 ≤ text.length := by
      rw [← List.length_cons, ← hdrop, List.length_drop]
      exact Nat.sub_le _ _
    split at h
    · rename_i taken hmatch
      have hpos := Recognizer.firstMatch?_taken_pos hmatch
      cases h
      rw [List.length_drop, List.length_cons]
      omega
    · cases h
      omega

namespace Lexer

/-- The next token is that of the text ahead, and the end is noted. -/
theorem next_spec (l : Lexer) :
    l.next.2.recognizers = l.recognizers ∧
    match nextOf l.recognizers l.cursor.rest with
    | none => l.next.1.unplaced = Token.finish ∧ l.next.2.done = true
    | some (token, rest) =>
      l.next.1.unplaced = token ∧ l.next.2.cursor.rest = rest ∧ l.next.2.done = l.done := by
  have hrest : (l.cursor.advance (blankLength l.recognizers 0 0 l.cursor.rest)).rest =
      l.cursor.rest.drop (blankLength l.recognizers 0 0 l.cursor.rest) :=
    Cursor.rest_advance _ _
  unfold next nextOf
  simp only [hrest]
  cases hdrop : l.cursor.rest.drop (blankLength l.recognizers 0 0 l.cursor.rest) with
  | nil => exact ⟨rfl, rfl, rfl⟩
  | cons c tail =>
    simp only
    cases hmatch : Recognizer.firstMatch? l.recognizers (c :: tail) with
    | none =>
      refine ⟨rfl, rfl, ?_, rfl⟩
      rw [Cursor.rest_advance, hrest, hdrop]
      rfl
    | some r =>
      refine ⟨rfl, rfl, ?_, rfl⟩
      rw [Cursor.rest_advance, hrest, hdrop]

end Lexer

/-! ## 2. All tokens -/

/-- The tokens of a text, their places aside. -/
def scan (rs : List Recognizer) (text : List Char) : List Token :=
  match _h : nextOf rs text with
  | none => [Token.finish]
  | some (token, rest) => token :: scan rs rest
termination_by text.length
decreasing_by exact length_of_nextOf _h

theorem scan_of_none {rs : List Recognizer} {text : List Char} (h : nextOf rs text = none) :
    scan rs text = [Token.finish] := by
  rw [scan]
  split
  · rfl
  · rename_i heq
    rw [h] at heq
    cases heq

theorem scan_of_some {rs : List Recognizer} {text rest : List Char} {token : Token}
    (h : nextOf rs text = some (token, rest)) : scan rs text = token :: scan rs rest := by
  rw [scan]
  split
  · rename_i heq
    rw [h] at heq
    cases heq
  · rename_i heq
    rw [h] at heq
    cases heq
    rfl

namespace Lexer

/-- Behind the end token nothing is taken, whatever the bound. -/
theorem takeOnto_done {l : Lexer} (h : l.done = true) (tokens : Array Token) (n : Nat) :
    takeOnto tokens n l = (tokens, l) := by
  cases n with
  | zero => rfl
  | succ n => rw [takeOnto, if_pos h]

theorem takeOnto_succ {l : Lexer} (h : l.done = false) (tokens : Array Token) (n : Nat) :
    takeOnto tokens (n + 1) l = takeOnto (tokens.push l.next.1) n l.next.2 := by
  rw [takeOnto, if_neg (by rw [h]; exact Bool.false_ne_true)]

section Room

variable {l : Lexer}

/-- The tokens read before do not matter for those that are taken. -/
theorem takeOnto_eq (tokens : Array Token) (n : Nat) (l : Lexer) :
    takeOnto tokens n l = (tokens ++ (l.take n).1, (l.take n).2) := by
  induction n generalizing tokens l with
  | zero => simp [take, takeOnto]
  | succ n ih =>
    cases hdone : l.done with
    | true => simp [take, takeOnto_done hdone]
    | false =>
      simp only [take, takeOnto_succ hdone]
      rw [ih (tokens.push l.next.1), ih (#[].push l.next.1)]
      simp

theorem take_done (h : l.done = true) (n : Nat) : l.take n = ([], l) := by
  simp [take, takeOnto_done h]

theorem take_succ (h : l.done = false) (n : Nat) :
    l.take (n + 1) = (l.next.1 :: (l.next.2.take n).1, (l.next.2.take n).2) := by
  rw [take, takeOnto_succ h, takeOnto_eq]
  simp

/-- A token that is not the last one leaves less text. -/
theorem length_rest_next (h : l.next.2.done = false) :
    l.next.2.cursor.rest.length < l.cursor.rest.length := by
  have hnext := l.next_spec.2
  cases hof : nextOf l.recognizers l.cursor.rest with
  | none =>
    simp only [hof] at hnext
    rw [hnext.2] at h
    cases h
  | some r =>
    simp only [hof] at hnext
    rw [hnext.2.1]
    exact length_of_nextOf hof

/-- All bounds beyond the text ahead are the same. -/
theorem take_eq_take {m n : Nat} (hm : l.cursor.rest.length < m) (hn : l.cursor.rest.length < n) :
    l.take m = l.take n := by
  induction m generalizing n l with
  | zero => omega
  | succ m ih =>
    obtain ⟨n, rfl⟩ : ∃ k, n = k + 1 := ⟨n - 1, by omega⟩
    cases hdone : l.done with
    | true => rw [take_done hdone, take_done hdone]
    | false =>
      rw [take_succ hdone, take_succ hdone]
      cases hnext : l.next.2.done with
      | true => rw [take_done hnext, take_done hnext]
      | false =>
        have hshorter := length_rest_next hnext
        rw [ih (l := l.next.2) (n := n) (by omega) (by omega)]

theorem all_done (h : l.done = true) : l.all = ([], l) := take_done h _

theorem all_succ (h : l.done = false) :
    l.all = (l.next.1 :: l.next.2.all.1, l.next.2.all.2) := by
  have htail : l.next.2.take l.cursor.rest.length = l.next.2.all := by
    cases hnext : l.next.2.done with
    | true => rw [take_done hnext, all_done hnext]
    | false =>
      have hshorter := length_rest_next hnext
      exact take_eq_take hshorter (Nat.lt_succ_self _)
  rw [all, take_succ h, htail]

end Room

/-- The tokens that a lexer takes are those of the text ahead. -/
theorem map_unplaced_all (l : Lexer) (hdone : l.done = false) :
    l.all.1.map Token.unplaced = scan l.recognizers l.cursor.rest := by
  induction hlen : l.cursor.rest.length using Nat.strongRecOn generalizing l with
  | ind n ih =>
    subst hlen
    obtain ⟨hrs, hnext⟩ := l.next_spec
    rw [all_succ hdone, List.map_cons]
    cases h : nextOf l.recognizers l.cursor.rest with
    | none =>
      simp only [h] at hnext
      rw [all_done hnext.2, hnext.1, scan_of_none h, List.map_nil]
    | some r =>
      obtain ⟨token, rest⟩ := r
      simp only [h] at hnext
      obtain ⟨htoken, hrest, hleft⟩ := hnext
      have hshorter : l.next.2.cursor.rest.length < l.cursor.rest.length :=
        hrest ▸ length_of_nextOf h
      rw [ih _ hshorter l.next.2 (hleft.trans hdone) rfl, htoken, hrs, hrest, scan_of_some h]

end Lexer

/-! ## 3. Taking a text apart -/

theorem Lexer.blankLength_count (rs : List Recognizer) (count skip : Nat) (text : List Char) :
    blankLength rs count skip text = count + blankLength rs 0 skip text := by
  induction text generalizing count skip with
  | nil => simp [blankLength]
  | cons c rest ih =>
    cases skip with
    | succ k => rw [blankLength, blankLength, ih (count + 1), ih (0 + 1)]; omega
    | zero =>
      rw [blankLength, blankLength]
      cases Recognizer.firstMatch? rs (c :: rest) with
      | none => rfl
      | some r =>
        obtain ⟨token, taken⟩ := r
        simp only
        split
        · rw [ih (count + 1), ih (0 + 1)]
          omega
        · rfl

theorem Recognizer.firstMatch?_blank {c : Char} (h : Text.isBlank c = true)
    (rs : List Recognizer) (rest : List Char) :
    ∃ token : Token, token.kind = .whitespace ∧
      firstMatch? (blank :: rs) (c :: rest) =
        some (token, (rest.takeWhile Text.isBlank).length + 1) := by
  refine ⟨⟨.whitespace, String.ofList ((c :: rest).takeWhile Text.isBlank), 0, 0, .nowhere⟩,
    rfl, ?_⟩
  simp [firstMatch?, match?, blank, h]

/-- White space is passed over one character at a time. -/
theorem Lexer.blankLength_blank {c : Char} (h : Text.isBlank c = true) (rs : List Recognizer)
    (rest : List Char) :
    blankLength (.blank :: rs) 0 0 (c :: rest) = blankLength (.blank :: rs) 0 0 rest + 1 := by
  obtain ⟨token, hkind, hmatch⟩ := Recognizer.firstMatch?_blank h rs rest
  rw [blankLength, hmatch]
  simp only [hkind, if_true, Nat.add_sub_cancel]
  rw [blankLength_count, Nat.zero_add, Nat.add_comm 1]
  congr 1
  -- The rest of the run is skipped at once, or read as a run of its own.
  cases rest with
  | nil => rfl
  | cons d rest =>
    cases hd : Text.isBlank d with
    | false => rw [List.takeWhile_cons, hd]; rfl
    | true =>
      obtain ⟨token', hkind', hmatch'⟩ := Recognizer.firstMatch?_blank hd rs rest
      rw [List.takeWhile_cons, hd, if_pos rfl, List.length_cons, blankLength, blankLength, hmatch']
      simp only [hkind', if_true, Nat.add_sub_cancel]

section Pieces

variable {rs : List Recognizer} {text rest : List Char} {token : Token}

theorem scan_nil : scan rs [] = [Token.finish] := scan_of_none rfl

theorem scan_blank {c : Char} (h : Text.isBlank c = true) :
    scan (.blank :: rs) (c :: rest) = scan (.blank :: rs) rest := by
  have hnext : nextOf (.blank :: rs) (c :: rest) = nextOf (.blank :: rs) rest := by
    rw [nextOf, nextOf, Lexer.blankLength_blank h, List.drop_succ_cons]
  cases hrest : nextOf (.blank :: rs) rest with
  | none => rw [scan_of_none hrest, scan_of_none (hnext.trans hrest)]
  | some r => rw [scan_of_some hrest, scan_of_some (hnext.trans hrest)]

theorem scan_blanks {blanks : List Char} (h : ∀ c ∈ blanks, Text.isBlank c = true) :
    scan (.blank :: rs) (blanks ++ rest) = scan (.blank :: rs) rest := by
  induction blanks with
  | nil => rfl
  | cons c blanks ih =>
    rw [List.cons_append, scan_blank (h c List.mem_cons_self),
      ih fun d hd => h d (List.mem_cons_of_mem c hd)]

/-- A token is taken off the front of a text. -/
theorem scan_token (htext : text ≠ [])
    (h : Recognizer.firstMatch? rs (text ++ rest) = some (token, text.length))
    (hkind : token.kind ≠ .whitespace) :
    scan rs (text ++ rest) = token.unplaced :: scan rs rest := by
  obtain ⟨c, tail, rfl⟩ := List.exists_cons_of_ne_nil htext
  have hblank : Lexer.blankLength rs 0 0 (c :: tail ++ rest) = 0 := by
    rw [List.cons_append] at h ⊢
    rw [Lexer.blankLength, h]
    simp only [hkind, if_false]
  refine scan_of_some ?_
  rw [nextOf, hblank, List.drop_zero]
  simp only [List.cons_append] at h ⊢
  rw [h]
  simp only
  rw [← List.cons_append, List.drop_left]

/-- Every token is the end token, or was taken off some text by a recognizer,
or is illegal. -/
theorem mem_scan (h : token ∈ scan rs text) :
    token = Token.finish ∨ token.kind = .illegal ∨
      ∃ token' text' taken, token = Token.unplaced token' ∧
        Recognizer.firstMatch? rs text' = some (token', taken) := by
  induction hlen : text.length using Nat.strongRecOn generalizing text with
  | ind n ih =>
    cases hnext : nextOf rs text with
    | none =>
      rw [scan_of_none hnext, List.mem_singleton] at h
      exact .inl h
    | some r =>
      obtain ⟨token', rest⟩ := r
      rw [scan_of_some hnext, List.mem_cons] at h
      rcases h with rfl | h
      · right
        unfold nextOf at hnext
        split at hnext
        · cases hnext
        · rename_i c tail _
          cases hmatch : Recognizer.firstMatch? rs (c :: tail) with
          | none =>
            simp only [hmatch] at hnext
            cases hnext
            exact .inl rfl
          | some r =>
            obtain ⟨token'', taken⟩ := r
            simp only [hmatch] at hnext
            cases hnext
            exact .inr ⟨token'', c :: tail, taken, rfl, hmatch⟩
      · exact ih rest.length (hlen ▸ length_of_nextOf hnext) h rfl

end Pieces

end RegAsm
