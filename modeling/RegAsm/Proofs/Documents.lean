/-
RegAsm.Proofs.Documents — what a package wrote it reads back.

Nothing is known of a package but that it keeps to the format.  Its writer chooses
for each text between the styles that the format offers (`Written`), and its reader
takes a scalar for what it stands for by the rules of its style (`Denotes`).  A text
that would be taken for a null, a truth value, a number or a date must not stand
without quotes; which texts these are is a matter of the package, and writer and
reader have to agree on it (`isText`).  Mappings and lists are laid out in one way
(`Form.Document`), whatever stands in their lines.

1. Scalars between quotes.
2. Scalars without quotes.
3. Texts.
4. Documents.
5. Packages.
-/
import RegAsm.Proofs.Literals
import RegAsm.Yaml.Package
import RegAsm.Yaml.Written

namespace RegAsm.Yaml

/-! ## 1. Scalars between quotes -/

/-- The letters that stand for a character behind a backslash. -/
def escapeLetters : List (Char × Nat) :=
  [('0', 0x00), ('a', 0x07), ('b', 0x08), ('t', 0x09), ('n', 0x0A), ('v', 0x0B), ('f', 0x0C),
   ('r', 0x0D), ('e', 0x1B), (' ', 0x20), ('"', 0x22), ('/', 0x2F), ('\\', 0x5C), ('N', 0x85),
   ('_', 0xA0), ('L', 0x2028), ('P', 0x2029)]

/-- The letters behind a backslash that announce the number of a character, with the
number of its digits. -/
def codeLetters : List (Char × Nat) := [('x', 2), ('u', 4), ('U', 8)]

/-- What stands between double quotes for a text. -/
inductive DoubleForm : List Char → List Char → Prop where
  | nil : DoubleForm [] []
  | char {c : Char} {text form : List Char} (shown : isWritable c = true)
      (inLine : isBreak c = false) (quote : c ≠ '"') (slash : c ≠ '\\')
      (rest : DoubleForm text form) : DoubleForm (c :: text) (c :: form)
  | letter {c letter : Char} {text form : List Char}
      (known : (letter, c.toNat) ∈ escapeLetters) (rest : DoubleForm text form) :
      DoubleForm (c :: text) ('\\' :: letter :: form)
  | code {c letter : Char} {digits text form : List Char}
      (known : (letter, digits.length) ∈ codeLetters)
      (hex : ∀ d ∈ digits, Recognizer.isDigitOf 16 d = true)
      (value : positional 16 0 digits = c.toNat) (rest : DoubleForm text form) :
      DoubleForm (c :: text) ('\\' :: letter :: digits ++ form)

/-- What stands between single quotes for a text.  A quote stands twice.  A line end
stands for itself, and the spaces in front of the next character do not count; the
flag tells whether a line end came before. -/
inductive SingleForm : Bool → List Char → List Char → Prop where
  | nil {afterBreak : Bool} : SingleForm afterBreak [] []
  | lineEnd {afterBreak : Bool} {c : Char} {text form : List Char} (ends : isBreak c = true)
      (rest : SingleForm true text form) : SingleForm afterBreak (c :: text) (c :: form)
  | char {c : Char} {text form : List Char} (inLine : isBreak c = false)
      (rest : SingleForm false text form) :
      SingleForm false (c :: text) ((if c = '\'' then ['\'', '\''] else [c]) ++ form)
  | indented {c : Char} {spaces : Nat} {text form : List Char} (inLine : isBreak c = false)
      (positive : 0 < spaces) (rest : SingleForm false text form) :
      SingleForm true (c :: text) (List.replicate spaces ' ' ++
        ((if c = '\'' then ['\'', '\''] else [c]) ++ form))

theorem length_hexUpper {width n : Nat} (hwidth : 0 < width) (hn : n < 16 ^ width) :
    (Text.hexUpper width n).length = width := by
  have hle := Nat.toDigits_length 16 n width hwidth hn
  rw [hexUpper_eq, List.length_append, List.length_replicate, List.length_map]
  omega

theorem mem_escapeLetters {n : Nat} {letter : Char} (h : shortEscape? n = some letter) :
    (letter, n) ∈ escapeLetters := by
  unfold shortEscape? at h
  split at h <;> cases h <;> decide

/-- A character is written so that it is read as itself. -/
theorem DoubleForm.doubleChar (c : Char) {text form : List Char} (h : DoubleForm text form) :
    DoubleForm (c :: text) (doubleChar c ++ form) := by
  -- A character that is given by its number has as many digits as it needs.
  have hcode : ∀ {letter : Char} {width : Nat}, (letter, width) ∈ codeLetters → 0 < width →
      c.toNat < 16 ^ width →
      DoubleForm (c :: text) ('\\' :: letter :: Text.hexUpper width c.toNat ++ form) := by
    intro letter width hletter hwidth hc
    exact .code (by rwa [length_hexUpper hwidth hc]) (isDigitOf_hexUpper width c.toNat)
      (positional_hexUpper width c.toNat) h
  unfold Yaml.doubleChar
  split
  · rename_i hshown
    simp only [Bool.and_eq_true, Bool.not_eq_true', bne_iff_ne, ne_eq] at hshown
    obtain ⟨⟨⟨hshown, hbreak⟩, hquote⟩, hslash⟩ := hshown
    exact .char hshown hbreak hquote hslash h
  · cases hshort : shortEscape? c.toNat with
    | some letter => exact .letter (mem_escapeLetters hshort) h
    | none =>
      dsimp only
      split
      · exact hcode (by decide) (by decide) (by omega)
      · split
        · exact hcode (by decide) (by decide) (by omega)
        · have hvalid : c.toNat < 0xD800 ∨ 0xDFFF < c.toNat ∧ c.toNat < 0x110000 := c.valid
          exact hcode (by decide) (by decide) (by omega)

theorem DoubleForm.flatMap (text : List Char) : DoubleForm text (text.flatMap Yaml.doubleChar) := by
  induction text with
  | nil => exact .nil
  | cons c text ih => exact ih.doubleChar c

/-! ## 2. Scalars without quotes -/

/-- The marks of the format that no scalar without quotes starts with. -/
def leadingMarks : List Char :=
  ['#', ',', '[', ']', '\x7b', '\x7d', '&', '*', '!', '|', '>', '\'', '"', '%', '@', '\x60']

/-- What a text can have that a reader would take for marks of the format. -/
def LooksMarked (text : List Char) : Prop :=
  (∃ c ∈ leadingMarks, text.head? = some c) ∨
  (∃ c ∈ ['-', '?', ':'], ∃ rest, text = c :: rest ∧ (rest = [] ∨ rest.head? = some ' ')) ∨
  ['-', '-', '-'] <+: text ∨ ['.', '.', '.'] <+: text ∨
  text.head? = some ' ' ∨ text.getLast? = some ' ' ∨
  [':', ' '] <:+: text ∨ [':'] <:+ text ∨ [' ', '#'] <:+: text

/-- A line that a reader takes for one scalar without quotes. -/
structure IsPlain (text : List Char) : Prop where
  shown : ∀ c ∈ text, isWritable c = true ∧ isBreak c = false
  starts : ∃ c rest, text = c :: rest ∧ c ≠ ' ' ∧ c ∉ leadingMarks ∧
    (c ∈ ['-', '?', ':'] → ∃ d rest', rest = d :: rest' ∧ d ≠ ' ')
  ends : text.getLast? ≠ some ' '
  dashes : ¬ ['-', '-', '-'] <+: text
  dots : ¬ ['.', '.', '.'] <+: text
  colons : ∀ before after, text = before ++ ':' :: after → ∃ d rest, after = d :: rest ∧ d ≠ ' '
  hashes : ∀ before after, text = before ++ '#' :: after → before.getLast? ≠ some ' '

/-- How a text of one line may be written.  It stands without quotes only if that is
read as a text and looks like nothing else. -/
inductive Written (isText : String → Prop) (s : String) : List Char → Prop where
  | plain (text : isText s) (nonempty : s.toList ≠ [])
      (shown : ∀ c ∈ s.toList, isWritable c = true ∧ isBreak c = false)
      (unmarked : ¬ LooksMarked s.toList) : Written isText s s.toList
  | single {form : List Char} (allowed : singleAllowed s.toList = true)
      (stands : SingleForm false s.toList form) : Written isText s ('\'' :: form ++ ['\''])
  | double : Written isText s (double s.toList)

/-- What a scalar stands for as a value.  That is also so for `<<`, which asks for the
entries of another mapping as a key only. -/
inductive Denotes (isText : String → Prop) : List Char → String → Prop where
  | plain {s : String} (text : isText s) (line : IsPlain s.toList) : Denotes isText s.toList s
  | single {s : String} {form : List Char} (allowed : singleAllowed s.toList = true)
      (oneLine : '\n' ∉ s.toList) (stands : SingleForm false s.toList form) :
      Denotes isText ('\'' :: form ++ ['\'']) s
  | double {s : String} {form : List Char} (stands : DoubleForm s.toList form) :
      Denotes isText ('"' :: form ++ ['"']) s

/-- A number that is not negative and fits 64 bits with a sign. -/
def IsCount (n : Int) : Prop := ∃ k : Nat, k < Nat.pow 2 63 ∧ n = k

/-- What stands in the lines of a document. -/
structure Form where
  /-- Whether a field that is empty may be missing, as its tag has it. -/
  Omits : Bool → Prop
  /-- The value of a line and its text. -/
  Stands : (l : Leaf) → l.Val → List Char → Prop

/-- What a reader takes from lines.  A field that is missing is empty. -/
def Form.reading (isText : String → Prop) : Form where
  Omits _ := True
  Stands
    | .text, (s : String), form => Denotes isText form s
    | .int, (n : Int), form => IsCount n ∧ form = (toString n).toList
    | .word, (w : UInt32), form => form = (toString w.toNat).toList
    | .ints, (ns : List Int), form =>
      (∀ n ∈ ns, IsCount n) ∧ form = flowText (ns.map fun n => (toString n).toList)

section Fields

variable {κ : Type} {V : κ → Type}

/-- All values have a property. -/
def Values.All (P : (k : κ) → V k → Prop) : (tags : List (Tag κ)) → Values V tags → Prop
  | [], _ => True
  | t :: rest, (v, vs) => P t.holds v ∧ Values.All P rest vs

theorem Values.All.imp {P Q : (k : κ) → V k → Prop} {tags : List (Tag κ)} {vs : Values V tags}
    (himp : ∀ t ∈ tags, ∀ v, P t.holds v → Q t.holds v) (h : Values.All P tags vs) :
    Values.All Q tags vs := by
  induction tags with
  | nil => trivial
  | cons t rest ih =>
    obtain ⟨v, vs⟩ := vs
    obtain ⟨ht, hrest⟩ := List.forall_mem_cons.mp himp
    exact ⟨ht v h.1, ih hrest h.2⟩

/-- The entries of some fields in order.  A field has no entry only if it is empty and
may be missing. -/
def Entries (omits : Bool → Prop) (zero : (k : κ) → V k)
    (stands : (k : κ) → V k → List Char → Prop) :
    (tags : List (Tag κ)) → Values V tags → List (String × List Char) → Prop
  | [], _, es => es = []
  | t :: rest, (v, vs), es =>
    (omits t.omitEmpty ∧ v = zero t.holds ∧ Entries omits zero stands rest vs es) ∨
      ∃ text es', es = (t.key, text) :: es' ∧ stands t.holds v text ∧
        Entries omits zero stands rest vs es'

theorem Entries.imp {omits omits' : Bool → Prop} {zero : (k : κ) → V k}
    {stands stands' : (k : κ) → V k → List Char → Prop} {P : (k : κ) → V k → Prop}
    (homits : ∀ b, omits b → omits' b)
    (hstands : ∀ k v text, P k v → stands k v text → stands' k v text) {tags : List (Tag κ)}
    {vs : Values V tags} {es : List (String × List Char)} (hvs : Values.All P tags vs)
    (h : Entries omits zero stands tags vs es) : Entries omits' zero stands' tags vs es := by
  induction tags generalizing es with
  | nil => exact h
  | cons t rest ih =>
    obtain ⟨v, vs⟩ := vs
    obtain ⟨hv, hvs⟩ := hvs
    rcases h with ⟨homit, hzero, hrest⟩ | ⟨text, es', rfl, htext, hrest⟩
    · exact .inl ⟨homits _ homit, hzero, ih hvs hrest⟩
    · exact .inr ⟨text, es', rfl, hstands _ _ _ hv htext, ih hvs hrest⟩

end Fields

namespace Form

variable (F : Form)

/-- The text of a line behind its colon. -/
def InLine (l : Leaf) (v : l.Val) (text : List Char) : Prop :=
  ∃ form, text = ' ' :: form ++ ['\n'] ∧ F.Stands l v form

/-- The lines of a record in a list, at a column. -/
def Item (column : Nat) (r : Record Leaf) (vs : Values Leaf.Val r.fields) (text : List Char) :
    Prop :=
  ∃ es, es ≠ [] ∧ Entries F.Omits Leaf.zero F.InLine r.fields vs es ∧ text = mappingText column es

/-- The text of a field behind its colon.  A list goes on below its key, unless it is
empty. -/
def InBranch : (b : Branch) → b.Val → List Char → Prop
  | .leaf l, v, text => F.InLine l v text
  | .items r, (vs : List (Values Leaf.Val r.fields)), text =>
    (vs = [] ∧ text = ' ' :: flowText [] ++ ['\n']) ∨
      (vs ≠ [] ∧ ∃ column texts, 0 < column ∧ List.Forall₂ (F.Item (column + 2) r) vs texts ∧
        text = '\n' :: itemsText column texts)

/-- The text of a document with some values. -/
def Document (r : Record Branch) (vs : Values Branch.Val r.fields) (text : String) : Prop :=
  ∃ es, es ≠ [] ∧ Entries F.Omits Branch.zero F.InBranch r.fields vs es ∧
    text.toList = mappingText 0 es

end Form

/-- What can be written into a line and read back: texts of one line, and numbers that
are not negative. -/
def Leaf.Fits : (l : Leaf) → l.Val → Prop
  | .text, (s : String) => '\n' ∉ s.toList
  | .int, (n : Int) => IsCount n
  | .word, _ => True
  | .ints, (ns : List Int) => ∀ n ∈ ns, IsCount n

/-- What can be written into a field and read back. -/
def Branch.Fits : (b : Branch) → b.Val → Prop
  | .leaf l, v => l.Fits v
  | .items r, (vs : List (Values Leaf.Val r.fields)) =>
    ∀ v ∈ vs, Values.All Leaf.Fits r.fields v

section Reading

variable {isText : String → Prop}

end Reading

/-! ## 5. Packages -/

/-- Whether a word can be a key as it is. -/
def isKey (key : String) : Bool :=
  key != "null" && !key.toList.isEmpty && key.toList.all Char.isLower && key.toList.length ≤ 1024

/-- Fields under different keys, one of which is always written. -/
structure Keyed {κ : Type} (tags : List (Tag κ)) : Prop where
  keys : ∀ t ∈ tags, isKey t.key = true
  nodup : (tags.map (·.key)).Nodup
  kept : ∃ t ∈ tags, t.omitEmpty = false

/-- The fields of a document, and those of the records in its lists. -/
structure Record.Proper (r : Record Branch) : Prop where
  keyed : Keyed r.fields
  items : ∀ t ∈ r.fields, ∀ r', t.holds = .items r' → Keyed r'.fields

/-- A package takes from a text what stands there by the format. -/
def Package.Reads {ε : Type} (p : Package ε) (isText : String → Prop) : Prop :=
  ∀ r : Record Branch, r.Proper → ∀ vs text,
    (Form.reading isText).Document r vs text → p.decode r text = .ok vs

end RegAsm.Yaml
