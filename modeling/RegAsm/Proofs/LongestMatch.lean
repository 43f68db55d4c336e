/-
RegAsm.Proofs.LongestMatch — a table is looked up by longest match.

A table is sorted once, longest entries first, and then searched from the front.
The first entry that fits is therefore a longest one of those that fit, and of
several as long the one with the smallest index.  Entries may repeat, start one
another or be empty, and each is tried with a look-ahead of its own: near the end
of a text a long entry fails where a shorter one still fits, and an entry that runs
on into a name gives way to a shorter one.

1. Names that fit a text.
2. The order of a sorted table.
3. Looking up.
-/
import Mathlib
import RegAsm.Proofs.Cursor
import RegAsm.Proofs.Words

namespace RegAsm.Recognizer

open Source (Cursor)

/-! ## 1. Names that fit -/

/-- How characters are compared: as they stand, or up to their case. -/
def comparison (folded : Bool) : Char → Char → Bool :=
  if folded then sameFolded else (· == ·)

theorem comparison_iff {folded : Bool} {x c : Char} :
    comparison folded x c = true ↔
      x = c ∨ folded = true ∧ Text.upperCase x = Text.upperCase c := by
  cases folded <;> simp [comparison, sameFolded]

/-- A name fits a text: the text goes on with its characters, as they stand or up
to their case, and if the name is bounded no character of names comes next. -/
structure Fits (folded bounded : Bool) (text : List Char) (name : String) : Prop where
  spelled : List.Forall₂
    (fun x c => x = c ∨ folded = true ∧ Text.upperCase x = Text.upperCase c)
    (text.take name.length) name.toList
  ends : bounded = true → ∀ c, text[name.length]? = some c → isNameChar c = false

/-- What is behind a spelling is the text less as many characters. -/
theorem behind?_eq_some_iff {same : Char → Char → Bool} {spelling text rest : List Char} :
    behind? same spelling text = some rest ↔
      List.Forall₂ (fun x c => same x c = true) (text.take spelling.length) spelling ∧
        rest = text.drop spelling.length := by
  induction spelling generalizing text with
  | nil =>
    rw [behind?, Option.some.injEq]
    simpa using eq_comm
  | cons c spelling ih =>
    cases text with
    | nil => simp [behind?]
    | cons x text =>
      rw [behind?, List.length_cons, List.take_succ_cons, List.drop_succ_cons, List.forall₂_cons,
        and_assoc, ← ih]
      cases same x c <;> simp

theorem endsName_drop_iff {text : List Char} {n : Nat} :
    endsName (text.drop n) = true ↔ ∀ c, text[n]? = some c → isNameChar c = false := by
  rw [← List.head?_drop]
  cases text.drop n <;> simp [endsName]

/-- Whether a spelling fits a text. -/
def fits (folded bounded : Bool) (text spelling : List Char) : Bool :=
  (behind? (comparison folded) spelling text).any fun rest => !bounded || endsName rest

theorem fits_iff {folded bounded : Bool} {text spelling : List Char} :
    fits folded bounded text spelling = true ↔
      Fits folded bounded text (String.ofList spelling) := by
  simp only [fits, Option.any_eq_true, behind?_eq_some_iff, comparison_iff]
  constructor
  · rintro ⟨-, ⟨hspelled, rfl⟩, hends⟩
    refine ⟨by simpa using hspelled, ?_⟩
    rintro rfl
    simpa [endsName_drop_iff] using hends
  · rintro ⟨hspelled, hends⟩
    refine ⟨_, ⟨by simpa using hspelled, rfl⟩, ?_⟩
    cases bounded with
    | false => rfl
    | true => simpa [endsName_drop_iff] using hends

/-- The search asks of an entry that it fits. -/
theorem entryAhead?_eq (folded bounded : Bool) (entries : List Entry) (text : List Char) :
    entryAhead? (comparison folded) bounded entries text =
      entries.find? fun e => fits folded bounded text e.text := by
  unfold entryAhead?
  congr
  funext e
  rw [fits]
  cases behind? (comparison folded) e.text text <;> rfl

/-! ## 2. The order of a sorted table -/

/-- An entry stands before another: it is longer, or as long and of smaller
index. -/
def Entry.Before (e e' : Entry) : Prop :=
  e'.text.length < e.text.length ∨ e'.text.length = e.text.length ∧ e.index < e'.index

/-- An entry of smaller index than all others is inserted where it belongs. -/
theorem pairwise_insertByLength {e : Entry} {entries : List Entry}
    (hsorted : entries.Pairwise Entry.Before) (hindex : ∀ e' ∈ entries, e.index < e'.index) :
    (insertByLength e entries).Pairwise Entry.Before := by
  induction entries with
  | nil => exact List.pairwise_singleton _ _
  | cons x entries ih =>
    obtain ⟨hx, hentries⟩ := List.pairwise_cons.mp hsorted
    rw [insertByLength]
    split
    · rename_i hle
      refine List.pairwise_cons.mpr ⟨fun e' he' => ?_, hsorted⟩
      have hlength : e'.text.length ≤ x.text.length := by
        rcases List.mem_cons.mp he' with rfl | he'
        · exact Nat.le_refl _
        · rcases hx e' he' with hlt | ⟨heq, -⟩
          · exact Nat.le_of_lt hlt
          · exact Nat.le_of_eq heq
      rcases Nat.lt_or_eq_of_le (hlength.trans hle) with hlt | heq
      · exact .inl hlt
      · exact .inr ⟨heq, hindex e' he'⟩
    · rename_i hgt
      have htail := ih hentries fun e' he' => hindex e' (List.mem_cons_of_mem x he')
      refine List.pairwise_cons.mpr ⟨fun e' he' => ?_, htail⟩
      rcases mem_insertByLength.mp he' with rfl | he'
      · exact .inl (Nat.lt_of_not_le hgt)
      · exact hx e' he'

/-- A sorted table has the longer entries first, and those of one length in the
order of the table. -/
theorem pairwise_byLength (names : List String) : (byLength names).Pairwise Entry.Before := by
  have hsort : ∀ entries : List Entry, entries.Pairwise (fun e e' => e.index < e'.index) →
      (entries.foldr insertByLength []).Pairwise Entry.Before := by
    intro entries hindex
    induction hindex with
    | nil => exact .nil
    | cons hfirst _ ih =>
      exact pairwise_insertByLength ih fun e' he' => hfirst e' (mem_foldr_insertByLength.mp he')
  have hindex : (names.zipIdx.map Prod.snd).Pairwise (· < ·) := by
    rw [List.zipIdx_map_snd]
    exact List.pairwise_lt_range' 1
  exact hsort _ (List.pairwise_map.mpr (List.pairwise_map.mp hindex))

/-! ## 3. Looking up -/

/-- A name is the longest match of a table: it fits, and every other one that fits
is shorter, or as long and further back in the table. -/
structure IsLongest (folded bounded : Bool) (names : List String) (text : List Char) (i : Nat)
    (name : String) : Prop where
  entry : names[i]? = some name
  fits : Fits folded bounded text name
  longest : ∀ (j : Nat) (other : String), names[j]? = some other →
    Fits folded bounded text other →
      other.length < name.length ∨ other.length = name.length ∧ i ≤ j

section LookUp

variable {folded bounded : Bool} {names : List String} {text : List Char}

/-- The search finds an entry that fits, and those that fit as well stand behind
it. -/
theorem isLongest_of_entryAhead? {e : Entry}
    (h : entryAhead? (comparison folded) bounded (byLength names) text = some e) :
    IsLongest folded bounded names text e.index (String.ofList e.text) := by
  rw [entryAhead?_eq] at h
  obtain ⟨hfits, before, behind, hsplit, hbefore⟩ := List.find?_eq_some_iff_append.mp h
  have hmem : e ∈ byLength names := by
    rw [hsplit]
    exact List.mem_append_right _ List.mem_cons_self
  have hsorted := pairwise_byLength names
  rw [hsplit, List.pairwise_append] at hsorted
  obtain ⟨-, hsorted, -⟩ := hsorted
  refine ⟨mem_byLength_iff.mp hmem, fits_iff.mp hfits, fun j other hj hother => ?_⟩
  have hj' : (⟨other.toList, j⟩ : Entry) ∈ byLength names :=
    mem_byLength_iff.mpr (by simpa using hj)
  rw [hsplit, List.mem_append, List.mem_cons] at hj'
  rw [String.length_ofList, ← String.length_toList]
  rcases hj' with hj' | rfl | hj'
  · -- What stands before the entry does not fit.
    have hnot := hbefore _ hj'
    rw [Bool.not_eq_true', ← Bool.not_eq_true, fits_iff, String.ofList_toList] at hnot
    exact absurd hother hnot
  · exact .inr ⟨rfl, Nat.le_refl _⟩
  · exact ((List.pairwise_cons.mp hsorted).1 _ hj').imp_right fun h => ⟨h.1, Nat.le_of_lt h.2⟩

theorem entryAhead?_eq_none_iff :
    entryAhead? (comparison folded) bounded (byLength names) text = none ↔
      ∀ name ∈ names, ¬ Fits folded bounded text name := by
  rw [entryAhead?_eq, List.find?_eq_none]
  simp only [fits_iff]
  constructor
  · intro h name hname
    obtain ⟨i, hi⟩ := List.mem_iff_getElem?.mp hname
    have hentry := h ⟨name.toList, i⟩ (mem_byLength_iff.mpr (by simpa using hi))
    rwa [String.ofList_toList] at hentry
  · intro h e he
    exact h _ (mem_of_mem_byLength he)

end LookUp

/-- A table is looked up by longest match.  At every cursor, with or without regard
to case and to the end of a name, either the answer is the longest match and the
cursor goes over exactly its length, or no name of the table fits and the cursor
stays. -/
theorem lookUp_longest (kind : TokenKind) (folded bounded : Bool) (names : List String)
    (c : Cursor Char) :
    let found := entryAhead? (comparison folded) bounded (byLength names) c.rest
    let answer := ofEntries kind (comparison folded) bounded (byLength names) c.rest
    let after := c.advance answer.taken
    (∃ (i : Nat) (name : String), IsLongest folded bounded names c.rest i name ∧
      found = some ⟨name.toList, i⟩ ∧ answer = .accept { kind, text := name, id := i } name.length ∧
      after.index = c.index + name.length ∧ after.rest = c.rest.drop name.length) ∨
    (∀ name ∈ names, ¬ Fits folded bounded c.rest name) ∧
      found = none ∧ answer = .refuse 0 ∧ after = c := by
  intro found answer after
  cases hfound : entryAhead? (comparison folded) bounded (byLength names) c.rest with
  | none =>
    have hanswer : answer = .refuse 0 := by simp only [answer, ofEntries, hfound]
    refine .inr ⟨entryAhead?_eq_none_iff.mp hfound, hfound, hanswer, ?_⟩
    simp only [after, hanswer]
    rfl
  | some e =>
    have hlongest := isLongest_of_entryAhead? hfound
    have hanswer : answer =
        .accept { kind, text := String.ofList e.text, id := e.index } e.text.length := by
      simp only [answer, ofEntries, hfound]
    have hafter : after = c.advance e.text.length := by simp only [after, hanswer]; rfl
    have hle : e.text.length ≤ c.rest.length := by
      have hlength := hlongest.fits.spelled.length_eq
      rw [List.length_take, String.length_ofList, String.toList_ofList] at hlength
      omega
    refine .inl ⟨e.index, String.ofList e.text, hlongest, ?_, ?_, ?_, ?_⟩
    · rw [String.toList_ofList]
      exact hfound
    · rw [String.length_ofList]
      exact hanswer
    · rw [hafter, String.length_ofList, Cursor.index_advance _ _ hle]
    · rw [hafter, String.length_ofList, Cursor.rest_advance]

/-- A longer name that runs on into another one gives way to a shorter one. -/
example : entryAhead? (comparison true) true (byLength ["", "a", "A", "a.b", "b"])
    ['A', '.', 'B', 'x'] = some ⟨['a'], 1⟩ := by
  decide +kernel

end RegAsm.Recognizer
