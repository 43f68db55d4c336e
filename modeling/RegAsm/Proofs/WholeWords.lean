/-
RegAsm.Proofs.WholeWords — registers and keywords are whole words, or names.

The tables hold many names that others start with, and each entry is tried with a
look-ahead of its own.  Still no word is ever cut: where a token starts on a letter
or an underscore, it takes the whole run of letters, digits and underscores there,
and what it is depends on that run alone.  It is a register if the table of registers
has the run, else a keyword if the table of keywords has it up to the case of its
letters, else a name (`tokenize_words`).
-/
import Mathlib
import RegAsm.Proofs.Canonical

namespace RegAsm

open Machine Recognizer

/-- The longest run of letters, digits and underscores from a character on. -/
def runAt (text : List Char) (i : Nat) : List Char := (text.drop i).takeWhile isNameChar

/-- A token stands for a whole word of a text: its stretch is the longest run of
letters, digits and underscores, and the tables say what the run is. -/
structure IsWholeWord (text : List Char) (t : Token) (s : Span) : Prop where
  stop : s.stop = s.start + (runAt text s.start).length
  register : ∀ i : Nat, Register.names[i]? = some (String.ofList (runAt text s.start)) →
    t = { kind := .register, text := String.ofList (runAt text s.start), id := i, pos := t.pos }
  keyword : String.ofList (runAt text s.start) ∉ Register.names →
    ∀ (i : Nat) (name : String), Mnemonic.names[i]? = some name →
      SameLetters (runAt text s.start) name.toList →
      t = { kind := .mnemonic, text := name, id := i, pos := t.pos }
  name : String.ofList (runAt text s.start) ∉ Register.names →
    (∀ name ∈ Mnemonic.names, ¬ SameLetters (runAt text s.start) name.toList) →
      t = { kind := .identifier, text := String.ofList (runAt text s.start), pos := t.pos }

/-- The token of a stretch that starts where a name can start is a whole word. -/
theorem isWholeWord_of_yields {text : List Char} {t : Token} {s : Span} {c : Char}
    (h : s.Yields languageRules text t) (hc : text[s.start]? = some c)
    (hstarts : startsName c = true) : IsWholeWord text t s := by
  obtain ⟨rest, hdrop⟩ : ∃ rest, text.drop s.start = c :: rest := by
    obtain ⟨hlt, rfl⟩ := List.getElem?_eq_some_iff.mp hc
    exact ⟨_, List.drop_eq_getElem_cons hlt⟩
  have hfirst : s.firstAnswer? languageRules text =
      some (wordToken (runAt text s.start), (runAt text s.start).length) := by
    rw [runAt, Span.firstAnswer?, hdrop]
    exact firstMatch?_run hstarts rest
  obtain ⟨token, hanswer, -, ht⟩ | ⟨hnone, -⟩ := h.answer
  · rw [hfirst, Option.some.injEq, Prod.mk.injEq] at hanswer
    obtain ⟨rfl, hlength⟩ := hanswer
    have hlt := s.nonempty
    refine ⟨by omega, ?_, ?_, ?_⟩
    · intro i hi
      rw [wordToken_of_register (registerEntry_eq_some hi)] at ht
      exact ht
    · intro hregister i name hi hsame
      rw [wordToken_of_keyword (registerEntry_eq_none hregister) (keywordEntry_eq_some hi hsame),
        entryToken, String.ofList_toList] at ht
      exact ht
    · intro hregister hkeyword
      rw [wordToken_of_neither (registerEntry_eq_none hregister)
        (keywordEntry_eq_none hkeyword)] at ht
      exact ht
  · rw [hfirst] at hnone
    cases hnone

/-- Wherever in a source a token starts on a letter or an underscore, it is a whole
word. -/
theorem tokenize_words (source : String) :
    ∃ tokens spans gaps,
      tokenize source = tokens ++ [Lexer.endOf source.toList] ∧
      Partition languageRules source.toList 0 tokens spans gaps ∧
      List.Forall₂ (fun t s => ∀ c, source.toList[s.start]? = some c →
        (Text.isLetter c = true ∨ c = '_') → IsWholeWord source.toList t s) tokens spans := by
  have hstart := Lexer.at_ofText source.toList languageRules
  obtain ⟨tokens, spans, gaps, htokens, -, hpart⟩ :=
    Lexer.completes_takeOnto hstart (Nat.lt_succ_self _) #[]
  refine ⟨tokens, spans, gaps, htokens, hpart, hpart.yields.imp fun t s hyields c hc hletter => ?_⟩
  exact isWholeWord_of_yields hyields hc (by simpa [startsName] using hletter)

end RegAsm
