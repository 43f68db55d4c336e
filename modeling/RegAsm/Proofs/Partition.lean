/-
RegAsm.Proofs.Partition — the tokens partition the text.

A lexer cuts its text into stretches, one behind the other.  Each stretch is
either passed over as white space or a comment, or it is that of one token,
which stands where the stretch starts.  So no character is lost and none is
read twice, whatever the rules of the lexer are and however far a rule went
before it refused.

1. Rules: what each one may answer, and how far.
2. The place of a character, counted in the text.
3. Stretches: a partition of a text from some character on.
4. One step of the lexer.
5. The whole run.
-/
import Mathlib
import RegAsm.Proofs.Words

namespace RegAsm

open Source (Cursor Position)

/-! ## 1. Rules -/

/-- The rules that a lexer can be made of, with any tables. -/
inductive LexRule where
  | blank
  | comment (lead : Char)
  | symbols (names : List String)
  | registers (names : List String)
  | keywords (names : List String)
  | number
  | string
  | identifier

namespace LexRule

/-- How a rule reads a token. -/
def recognizer : LexRule → Recognizer
  | .blank => .blank
  | .comment lead => .comment lead
  | .symbols names => .symbols names
  | .registers names => .registers names
  | .keywords names => .keywords names
  | .number => .number
  | .string => .string
  | .identifier => .identifier

/-- Whether a rule is one for white space or comments. -/
def passesOver : LexRule → Bool
  | .blank => true
  | .comment _ => true
  | _ => false

/-- The kinds of token that a rule answers with. -/
def kinds : LexRule → List TokenKind
  | .blank => [.whitespace]
  | .comment _ => [.whitespace]
  | .symbols _ => [.symbol]
  | .registers _ => [.register]
  | .keywords _ => [.mnemonic]
  | .number => [.number, .illegal]
  | .string => [.string]
  | .identifier => [.identifier]

theorem eof_notMem_kinds (rule : LexRule) : .eof ∉ rule.kinds := by
  cases rule <;> simp [kinds]

theorem passesOver_of_whitespace {rule : LexRule} (h : .whitespace ∈ rule.kinds) :
    rule.passesOver = true := by
  cases rule <;> simp_all [kinds, passesOver]

theorem entries_spec {kind : TokenKind} {same : Char → Char → Bool} {bounded : Bool}
    {entries : List Recognizer.Entry} {text : List Char}
    (h : (Recognizer.ofEntries kind same bounded entries text).accepted = true) :
    (Recognizer.ofEntries kind same bounded entries text).token.kind ∈ [kind] ∧
      (Recognizer.ofEntries kind same bounded entries text).taken ≤ text.length := by
  obtain ⟨e, -, hle, heq⟩ := Recognizer.ofEntries_spec h
  rw [heq]
  exact ⟨List.mem_singleton_self _, hle⟩

/-- An accepting answer has a kind of its rule and stays inside the text. -/
theorem accepted_spec (rule : LexRule) {text : List Char}
    (h : (rule.recognizer text).accepted = true) :
    (rule.recognizer text).token.kind ∈ rule.kinds ∧
      (rule.recognizer text).taken ≤ text.length := by
  cases rule with
  | blank => exact ⟨List.mem_singleton_self _, (List.takeWhile_sublist _).length_le⟩
  | comment lead =>
    cases text with
    | nil => cases h
    | cons c rest =>
      simp only [recognizer, Recognizer.comment] at h ⊢
      split
      · exact ⟨List.mem_singleton_self _, (List.takeWhile_sublist _).length_le⟩
      · rename_i hc
        rw [if_neg hc] at h
        cases h
  | symbols names => exact entries_spec h
  | registers names => exact entries_spec h
  | keywords names => exact entries_spec h
  | number =>
    obtain ⟨hkind, hle⟩ := Recognizer.number_spec h
    refine ⟨?_, hle⟩
    rcases hkind with hkind | hkind <;> simp [recognizer, kinds, hkind]
  | string =>
    simp only [recognizer] at h ⊢
    revert h
    fun_cases Recognizer.string text with
    | case1 rest =>
      intro h
      obtain ⟨contents, n, hn, heq⟩ := Recognizer.stringBody_spec h
      rw [heq]
      refine ⟨List.mem_singleton_self _, ?_⟩
      show n ≤ rest.length + 1
      omega
    | case2 => intro h; cases h
  | identifier =>
    cases text with
    | nil => cases h
    | cons c rest =>
      simp only [recognizer, Recognizer.identifier] at h ⊢
      split
      · exact ⟨List.mem_singleton_self _, (List.takeWhile_sublist _).length_le⟩
      · rename_i hc
        rw [if_neg hc] at h
        cases h

/-- What an answer that counts is like. -/
theorem match?_spec {rule : LexRule} {text : List Char} {token : Token} {taken : Nat}
    (h : rule.recognizer.match? text = some (token, taken)) :
    token.kind ∈ rule.kinds ∧ 0 < taken ∧ taken ≤ text.length := by
  have hpos := Recognizer.taken_pos h
  simp only [Recognizer.match?, Option.ite_none_right_eq_some, Bool.and_eq_true, Option.some.injEq,
    Prod.mk.injEq] at h
  obtain ⟨⟨⟨haccepted, -⟩, -⟩, rfl, rfl⟩ := h
  obtain ⟨hkind, hle⟩ := rule.accepted_spec haccepted
  exact ⟨hkind, hpos, hle⟩

end LexRule

/-- The rules of a lexer, white space first. -/
def rulesOf (rules : List LexRule) : List Recognizer :=
  (LexRule.blank :: rules).map LexRule.recognizer

theorem exists_of_firstMatch? {rules : List LexRule} {text : List Char} {token : Token}
    {taken : Nat} (h : Recognizer.firstMatch? (rulesOf rules) text = some (token, taken)) :
    ∃ rule ∈ LexRule.blank :: rules, rule.recognizer.match? text = some (token, taken) := by
  obtain ⟨r, hr, hmatch⟩ := List.exists_of_findSome?_eq_some h
  obtain ⟨rule, hrule, rfl⟩ := List.mem_map.mp hr
  exact ⟨rule, hrule, hmatch⟩

/-! ## 2. The place of a character -/

/-- The line and the column of a character: one more than the line feeds in
front of it, and the characters behind the last of them. -/
def placeOf (text : List Char) (i : Nat) : Position :=
  ⟨1 + (text.take i).count '\n', ((text.take i).reverse.takeWhile (· ≠ '\n')).length⟩

theorem placeOf_eq (text : List Char) (i : Nat) :
    placeOf text i = Source.placeAt (· == '\n') text i := by
  have hends : ∀ c : Char, decide (c ≠ '\n') = !(c == '\n') := fun c => by
    rw [decide_not, beq_eq_decide]
  simp only [placeOf, Source.placeAt, List.count, hends]

theorem placeOf_zero (text : List Char) : placeOf text 0 = .start := rfl

theorem placeOf_succ {text : List Char} {i : Nat} {c : Char} {rest : List Char}
    (h : text.drop i = c :: rest) : placeOf text (i + 1) = (placeOf text i).next (c == '\n') := by
  rw [placeOf_eq, placeOf_eq, Source.placeAt_succ _ h]

/-- Where a lexer stands: in front of a character of its text, at that
character's place. -/
structure Lexer.At (rules : List LexRule) (text : List Char) (i : Nat) (l : Lexer) : Prop where
  rest : l.cursor.rest = text.drop i
  inside : i ≤ text.length
  pos : l.cursor.pos = placeOf text i
  lines : l.cursor.endsLine = (· == '\n')
  recognizers : l.recognizers = rulesOf rules
  running : l.done = false

namespace Lexer

variable {rules : List LexRule} {text : List Char} {i : Nat} {l : Lexer}

/-- The lexer with its cursor moved on. -/
def moved (l : Lexer) (n : Nat) : Lexer := { l with cursor := l.cursor.advance n }

theorem at_ofText (text : List Char) (rules : List LexRule) :
    At rules text 0 (ofText text (rules.map LexRule.recognizer)) :=
  ⟨rfl, Nat.zero_le _, (placeOf_zero text).symm, rfl, rfl, rfl⟩

theorem At.moved (h : At rules text i l) {n : Nat} (hn : i + n ≤ text.length) :
    At rules text (i + n) (l.moved n) := by
  induction n generalizing i l with
  | zero => exact h
  | succ n ih =>
    obtain ⟨⟨rest, index, pos, marks, endsLine⟩, rs, done⟩ := l
    obtain ⟨hrest, hinside, hpos, hlines, hrs, hdone⟩ := h
    simp only at hrest hpos hlines hrs hdone
    cases rest with
    | nil =>
      have hlen := congrArg List.length hrest
      rw [List.length_nil, List.length_drop] at hlen
      omega
    | cons c rest =>
      -- One character on, the place is that of the next character.
      have hstep : At rules text (i + 1)
          ⟨⟨rest, index + 1, pos.next (endsLine c), marks, endsLine⟩, rs, done⟩ := by
        refine ⟨?_, by omega, ?_, hlines, hrs, hdone⟩
        · show rest = text.drop (i + 1)
          rw [← List.drop_drop, ← hrest, List.drop_succ_cons, List.drop_zero]
        · show pos.next (endsLine c) = placeOf text (i + 1)
          rw [placeOf_succ hrest.symm, hpos, hlines]
      have hgo := ih hstep (by omega)
      rw [Nat.add_assoc, Nat.add_comm 1 n] at hgo
      exact hgo

end Lexer

/-! ## 3. Stretches -/

/-- A stretch of at least one character, from its start up to its stop. -/
structure Span where
  start : Nat
  stop : Nat
  nonempty : start < stop

namespace Span

/-- Whether a character lies in a stretch. -/
def Holds (s : Span) (i : Nat) : Prop := s.start ≤ i ∧ i < s.stop

/-- Whether two stretches share no character. -/
def Apart (s t : Span) : Prop := s.stop ≤ t.start ∨ t.stop ≤ s.start

theorem Apart.symm {s t : Span} (h : Apart s t) : Apart t s := h.elim .inr .inl

/-- What the rules say first where a stretch starts. -/
def firstAnswer? (rules : List LexRule) (text : List Char) (s : Span) : Option (Token × Nat) :=
  Recognizer.firstMatch? (rulesOf rules) (text.drop s.start)

/-- A stretch is passed over: a rule for white space or comments answers first
where it starts, and takes the whole of it. -/
def IsPassed (rules : List LexRule) (text : List Char) (s : Span) : Prop :=
  ∃ rule ∈ LexRule.blank :: rules, rule.passesOver = true ∧ ∃ token,
    rule.recognizer.match? (text.drop s.start) = some (token, s.stop - s.start) ∧
    s.firstAnswer? rules text = some (token, s.stop - s.start)

/-- A token is that of a stretch: it has the place of its first character, and
it is the first answer there, which takes the whole stretch, or the illegal
token of one character that no rule takes. -/
structure Yields (rules : List LexRule) (text : List Char) (t : Token) (s : Span) : Prop where
  place : t.pos = placeOf text s.start
  answer :
    (∃ token, s.firstAnswer? rules text = some (token, s.stop - s.start) ∧
      token.kind ≠ .whitespace ∧ t = { token with pos := t.pos }) ∨
    (s.firstAnswer? rules text = none ∧ s.stop = s.start + 1 ∧ ∃ c, text[s.start]? = some c ∧
      t = { kind := .illegal, text := String.singleton c, pos := t.pos })

/-- No stretch of a text yields the end token. -/
theorem Yields.kind_ne {rules : List LexRule} {text : List Char} {t : Token} {s : Span}
    (h : Yields rules text t s) : t.kind ≠ .eof := by
  rcases h.answer with ⟨token, hfirst, -, heq⟩ | ⟨-, -, c, -, heq⟩
  · obtain ⟨rule, -, hmatch⟩ := exists_of_firstMatch? hfirst
    rw [heq]
    intro hkind
    exact rule.eof_notMem_kinds (hkind ▸ (LexRule.match?_spec hmatch).1)
  · rw [heq]
    exact TokenKind.noConfusion

end Span

/-- From a character on, a text is cut into the stretches of some tokens, in
order, and the gaps between them, which are passed over. -/
structure Partition (rules : List LexRule) (text : List Char) (start : Nat) (tokens : List Token)
    (spans gaps : List Span) : Prop where
  /-- There is one stretch for each token. -/
  yields : List.Forall₂ (Span.Yields rules text) tokens spans
  passed : ∀ g ∈ gaps, g.IsPassed rules text
  /-- The tokens stand one behind the other. -/
  increasing : spans.Pairwise fun s t => s.stop ≤ t.start
  /-- No two stretches or gaps share a character. -/
  apart : (spans ++ gaps).Pairwise Span.Apart
  /-- They hold the characters of the text and nothing else. -/
  covered : ∀ i, (∃ s ∈ spans ++ gaps, s.Holds i) ↔ start ≤ i ∧ i < text.length

namespace Partition

variable {rules : List LexRule} {text : List Char} {tokens : List Token} {spans gaps : List Span}

theorem finish : Partition rules text text.length [] [] [] := by
  refine ⟨.nil, List.forall_mem_nil _, .nil, .nil, ?_⟩
  intro i
  constructor
  · rintro ⟨s, hs, -⟩
    exact absurd hs List.not_mem_nil
  · intro h
    omega

theorem start_le {start : Nat} (h : Partition rules text start tokens spans gaps) {s : Span}
    (hs : s ∈ spans ++ gaps) : start ≤ s.start :=
  ((h.covered s.start).mp ⟨s, hs, Nat.le_refl _, s.nonempty⟩).1

theorem exists_span {start : Nat} (h : Partition rules text start tokens spans gaps) {t : Token}
    (ht : t ∈ tokens) : ∃ s, Span.Yields rules text t s := by
  have hyields := h.yields
  clear h
  induction hyields with
  | nil => exact absurd ht List.not_mem_nil
  | @cons t' s _ _ hfirst _ ih =>
    rcases List.mem_cons.mp ht with rfl | ht
    · exact ⟨s, hfirst⟩
    · exact ih ht

theorem kind_ne {start : Nat} (h : Partition rules text start tokens spans gaps) :
    ∀ t ∈ tokens, t.kind ≠ .eof := by
  intro t ht
  obtain ⟨s, hyields⟩ := h.exists_span ht
  exact hyields.kind_ne

/-- One more stretch in front. -/
theorem covered_cons {s : Span} (h : Partition rules text s.stop tokens spans gaps)
    (hs : s.stop ≤ text.length) (i : Nat) :
    (∃ t ∈ s :: (spans ++ gaps), t.Holds i) ↔ s.start ≤ i ∧ i < text.length := by
  have hlt := s.nonempty
  rw [List.exists_mem_cons_iff, h.covered i, Span.Holds]
  omega

theorem apart_cons {s : Span} (h : Partition rules text s.stop tokens spans gaps) :
    (s :: (spans ++ gaps)).Pairwise Span.Apart :=
  List.pairwise_cons.mpr ⟨fun _ ht => .inl (h.start_le ht), h.apart⟩

/-- A token's stretch in front of a partition. -/
theorem token {s : Span} {t : Token} (h : Partition rules text s.stop tokens spans gaps)
    (hs : s.stop ≤ text.length) (hyields : s.Yields rules text t) :
    Partition rules text s.start (t :: tokens) (s :: spans) gaps where
  yields := .cons hyields h.yields
  passed := h.passed
  increasing := List.pairwise_cons.mpr
    ⟨fun _ ht => h.start_le (List.mem_append_left _ ht), h.increasing⟩
  apart := h.apart_cons
  covered := h.covered_cons hs

/-- A gap in front of a partition. -/
theorem gap {s : Span} (h : Partition rules text s.stop tokens spans gaps)
    (hs : s.stop ≤ text.length) (hpassed : s.IsPassed rules text) :
    Partition rules text s.start tokens spans (s :: gaps) where
  yields := h.yields
  passed := List.forall_mem_cons.mpr ⟨hpassed, h.passed⟩
  increasing := h.increasing
  apart := (List.pairwise_middle Span.Apart.symm).mpr h.apart_cons
  covered := by
    intro i
    rw [← h.covered_cons hs i]
    simp only [List.perm_middle.mem_iff]

end Partition

/-! ## 4. One step of the lexer -/

namespace Lexer

theorem blankLength_skip (rs : List Recognizer) {skip : Nat} {text : List Char}
    (h : skip ≤ text.length) :
    blankLength rs 0 skip text = skip + blankLength rs 0 0 (text.drop skip) := by
  induction text generalizing skip with
  | nil =>
    obtain rfl : skip = 0 := Nat.le_zero.mp h
    rfl
  | cons c rest ih =>
    cases skip with
    | zero => rw [List.drop_zero, Nat.zero_add]
    | succ k =>
      rw [blankLength, blankLength_count, ih (Nat.le_of_succ_le_succ h), List.drop_succ_cons]
      omega

section Answers

variable {rs : List Recognizer} {text : List Char} {token : Token} {taken : Nat}

/-- White space in front is passed over as a whole. -/
theorem blankLength_space (h : Recognizer.firstMatch? rs text = some (token, taken))
    (hkind : token.kind = .whitespace) (hle : taken ≤ text.length) :
    blankLength rs 0 0 text = taken + blankLength rs 0 0 (text.drop taken) := by
  have hpos := Recognizer.firstMatch?_taken_pos h
  obtain ⟨k, rfl⟩ : ∃ k, taken = k + 1 := ⟨taken - 1, by omega⟩
  cases text with
  | nil => simp at hle
  | cons c rest =>
    rw [blankLength, h]
    simp only [hkind, if_true, Nat.add_sub_cancel, List.drop_succ_cons]
    rw [blankLength_count, blankLength_skip rs (Nat.le_of_succ_le_succ hle)]
    omega

theorem blankLength_token (h : Recognizer.firstMatch? rs text = some (token, taken))
    (hkind : token.kind ≠ .whitespace) : blankLength rs 0 0 text = 0 := by
  cases text with
  | nil => rfl
  | cons c rest =>
    rw [blankLength, h]
    simp only [hkind, if_false]

theorem blankLength_none (h : Recognizer.firstMatch? rs text = none) :
    blankLength rs 0 0 text = 0 := by
  cases text with
  | nil => rfl
  | cons c rest => rw [blankLength, h]

end Answers

variable {l : Lexer} {token : Token} {taken : Nat}

/-- White space does not change the next token. -/
theorem next_space
    (h : Recognizer.firstMatch? l.recognizers l.cursor.rest = some (token, taken))
    (hkind : token.kind = .whitespace) (hle : taken ≤ l.cursor.rest.length) :
    l.next = (l.moved taken).next := by
  have hstart : l.cursor.advance (blankLength l.recognizers 0 0 l.cursor.rest) =
      (l.cursor.advance taken).advance
        (blankLength l.recognizers 0 0 (l.cursor.advance taken).rest) := by
    rw [blankLength_space h hkind hle, Cursor.advance_add, Cursor.rest_advance]
  unfold next moved
  simp only [hstart]

theorem next_token
    (h : Recognizer.firstMatch? l.recognizers l.cursor.rest = some (token, taken))
    (hkind : token.kind ≠ .whitespace) (hne : l.cursor.rest ≠ []) :
    l.next = ({ token with pos := l.cursor.pos }, l.moved taken) := by
  obtain ⟨c, rest, hrest⟩ := List.exists_cons_of_ne_nil hne
  unfold next
  simp only [blankLength_token h hkind, Cursor.advance]
  rw [hrest] at h ⊢
  simp only [h]
  rfl

theorem next_illegal {c : Char} {rest : List Char} (hrest : l.cursor.rest = c :: rest)
    (h : Recognizer.firstMatch? l.recognizers l.cursor.rest = none) :
    l.next =
      ({ kind := .illegal, text := String.singleton c, pos := l.cursor.pos }, l.moved 1) := by
  unfold next
  simp only [blankLength_none h, Cursor.advance]
  rw [hrest] at h ⊢
  simp only [h]
  rfl

theorem next_end (hrest : l.cursor.rest = []) :
    l.next = ({ kind := .eof, pos := l.cursor.pos }, { l with done := true }) := by
  unfold next
  simp only [hrest, blankLength, Cursor.advance]

/-! ## 5. The whole run -/

/-- The end token of a text. -/
def endOf (text : List Char) : Token := { kind := .eof, pos := placeOf text text.length }

/-- What a run of the lexer gives, from where it stands: some tokens and the
end token, and a partition of the rest of the text into them. -/
def Completes (rules : List LexRule) (text : List Char) (i : Nat) (before : Array Token)
    (r : Array Token × Lexer) : Prop :=
  ∃ tokens spans gaps, r.1.toList = before.toList ++ (tokens ++ [endOf text]) ∧
    r.2.done = true ∧ Partition rules text i tokens spans gaps

variable {rules : List LexRule} {text : List Char} {i : Nat}

theorem completes_end (h : At rules text i l) (hend : text.drop i = []) (before : Array Token)
    (n : Nat) : Completes rules text i before (takeOnto before (n + 1) l) := by
  obtain rfl : i = text.length :=
    Nat.le_antisymm h.inside (List.drop_eq_nil_iff.mp hend)
  rw [takeOnto_succ h.running, next_end (h.rest.trans hend), takeOnto_done rfl, h.pos]
  exact ⟨[], [], [], Array.toList_push, rfl, .finish⟩

theorem completes_gap {n : Nat} (h : At rules text i l)
    (hfirst : Recognizer.firstMatch? (rulesOf rules) (text.drop i) = some (token, taken))
    (hkind : token.kind = .whitespace) {before : Array Token}
    (hrun : At rules text (i + taken) (l.moved taken) →
      Completes rules text (i + taken) before (takeOnto before (n + 1) (l.moved taken))) :
    Completes rules text i before (takeOnto before (n + 1) l) := by
  obtain ⟨rule, hrule, hmatch⟩ := exists_of_firstMatch? hfirst
  obtain ⟨hkinds, hpos, hle⟩ := LexRule.match?_spec hmatch
  have hstop : i + taken ≤ text.length := by
    rw [List.length_drop] at hle
    have := h.inside
    omega
  have hmoved := h.moved hstop
  have hsame : takeOnto before (n + 1) l = takeOnto before (n + 1) (l.moved taken) := by
    rw [takeOnto_succ h.running, takeOnto_succ hmoved.running,
      next_space (by rw [h.recognizers, h.rest, hfirst]) hkind (by rw [h.rest]; exact hle)]
  obtain ⟨tokens, spans, gaps, htokens, hdone, hpart⟩ := hrun hmoved
  have hpassed : Span.IsPassed rules text ⟨i, i + taken, by omega⟩ := by
    refine ⟨rule, hrule, LexRule.passesOver_of_whitespace (hkind ▸ hkinds), token, ?_, ?_⟩
    · simpa using hmatch
    · simpa [Span.firstAnswer?] using hfirst
  rw [hsame]
  exact ⟨tokens, spans, _, htokens, hdone, hpart.gap hstop hpassed⟩

theorem completes_token {n stop : Nat} (h : At rules text i l) (hlt : i < stop)
    (hstop : stop ≤ text.length) {t : Token} (hyields : Span.Yields rules text t ⟨i, stop, hlt⟩)
    {l' : Lexer} (hnext : l.next = (t, l')) {before : Array Token}
    (hrun : Completes rules text stop (before.push t) (takeOnto (before.push t) n l')) :
    Completes rules text i before (takeOnto before (n + 1) l) := by
  obtain ⟨tokens, spans, gaps, htokens, hdone, hpart⟩ := hrun
  rw [takeOnto_succ h.running, hnext]
  refine ⟨t :: tokens, _, gaps, ?_, hdone, hpart.token hstop hyields⟩
  rw [htokens, Array.toList_push, List.append_assoc, List.singleton_append, List.cons_append]

/-- A run with room for one token more than there are characters completes. -/
theorem completes_takeOnto (h : At rules text i l) {n : Nat} (hn : text.length - i < n)
    (before : Array Token) : Completes rules text i before (takeOnto before n l) := by
  induction hleft : text.length - i using Nat.strongRecOn generalizing i l n before with
  | ind left ih =>
    obtain ⟨n, rfl⟩ : ∃ m, n = m + 1 := ⟨n - 1, by omega⟩
    cases hdrop : text.drop i with
    | nil => exact completes_end h hdrop before n
    | cons c rest =>
      have hlt : i < text.length := by
        have hlen := congrArg List.length hdrop
        rw [List.length_drop, List.length_cons] at hlen
        omega
      cases hfirst : Recognizer.firstMatch? (rulesOf rules) (text.drop i) with
      | none =>
        have hyields : Span.Yields rules text
            { kind := .illegal, text := String.singleton c, pos := l.cursor.pos }
            ⟨i, i + 1, Nat.lt_succ_self i⟩ := by
          refine ⟨h.pos, .inr ⟨hfirst, rfl, c, ?_, rfl⟩⟩
          rw [← List.head?_drop, hdrop, List.head?_cons]
        have hnext := next_illegal (h.rest.trans hdrop) (by rw [h.recognizers, h.rest, hfirst])
        exact completes_token h _ hlt hyields hnext
          (ih (text.length - (i + 1)) (by omega) (h.moved hlt) (by omega) _ rfl)
      | some r =>
        obtain ⟨token, taken⟩ := r
        obtain ⟨rule, -, hmatch⟩ := exists_of_firstMatch? hfirst
        obtain ⟨-, hpos, hle⟩ := LexRule.match?_spec hmatch
        have hstop : i + taken ≤ text.length := by
          rw [List.length_drop] at hle
          omega
        by_cases hkind : token.kind = .whitespace
        · exact completes_gap h hfirst hkind fun hmoved =>
            ih (text.length - (i + taken)) (by omega) hmoved (by omega) _ rfl
        · have hyields : Span.Yields rules text { token with pos := l.cursor.pos }
              ⟨i, i + taken, by omega⟩ := by
            refine ⟨h.pos, .inl ⟨token, ?_, hkind, rfl⟩⟩
            simpa [Span.firstAnswer?] using hfirst
          have hnext : l.next = ({ token with pos := l.cursor.pos }, l.moved taken) :=
            next_token (by rw [h.recognizers, h.rest, hfirst]) hkind
              (by rw [h.rest, hdrop]; exact List.cons_ne_nil _ _)
          exact completes_token h _ hstop hyields hnext
            (ih (text.length - (i + taken)) (by omega) (h.moved hstop) (by omega) _ rfl)

/-- The tokens partition the text.  For every text and every list of rules the
lexer comes to its end.  It gives one end token, which is the last one and
stands behind the last character; the other tokens stand on stretches of the
text, in order, and what lies between them is white space or comments. -/
theorem all_partition (text : List Char) (rules : List LexRule) :
    ∃ tokens spans gaps,
      (ofText text (rules.map LexRule.recognizer)).all.1 =
        tokens ++ [{ kind := .eof, pos := placeOf text text.length }] ∧
      (ofText text (rules.map LexRule.recognizer)).all.2.done = true ∧
      (∀ t ∈ tokens, t.kind ≠ .eof) ∧
      Partition rules text 0 tokens spans gaps := by
  have hstart := at_ofText text rules
  obtain ⟨tokens, spans, gaps, htokens, hdone, hpart⟩ :=
    completes_takeOnto hstart (n := text.length + 1) (by omega) #[]
  exact ⟨tokens, spans, gaps, htokens, hdone, hpart.kind_ne, hpart⟩

end Lexer

end RegAsm
