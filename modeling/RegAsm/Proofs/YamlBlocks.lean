/-
RegAsm.Proofs.YamlBlocks — mappings and lists are read back from their lines.

A reader of blocks sees the lines of a node and the lines behind it, and tells
them apart by their columns.  What is known of a part is therefore said for
every tail that starts before the part's column (`Outdents`), and the reader
that took the part stands before that tail, up to blanks (`Yields`).

The readers share a bound on their steps.  A part of some length is read within
a few steps more than its characters.

1. Where lines start.
2. Values on the line of their key.
3. Lists between brackets.
4. Mappings.
5. Lists.
6. Documents.
-/
import RegAsm.Proofs.YamlScalars

namespace RegAsm.Yaml

/-! ## 1. Where lines start -/

section Opening

variable {rest : List Char} {line column : Nat} {keyAllowed : Bool}

theorem skip_of_opensLine (h : opensLine rest = true) :
    Input.skip false ⟨rest, line, column, keyAllowed, []⟩ =
      ⟨rest, line, column, keyAllowed, []⟩ := by
  obtain ⟨c, r, rfl, hbreak, hblank, hhash, -⟩ := opensLine_spec h
  exact Input.skip_content hbreak hblank hhash r

/-- Past its indentation the reader stands at the first character of a line. -/
theorem skip_indented (h : opensLine rest = true) :
    (atLine (List.replicate column ' ' ++ rest) line).skip false =
      ⟨rest, line, column, true, []⟩ := by
  rw [atLine, Input.skip_spaces, Nat.zero_add, skip_of_opensLine h]

end Opening

/-- Past the blanks of a tail the reader stands at its end or before the
column. -/
theorem Outdents.skip_atLine {limit : Nat} {tail : List Char} (h : Outdents limit tail)
    (line : Nat) :
    ∃ j, (atLine tail line).skip false = j ∧ j.skip false = j ∧ j.atMark ':' = false ∧
      (j.atEnd = true ∨ j.column < limit) := by
  rcases h with rfl | ⟨n, rest, hn, hopens, rfl⟩
  · exact ⟨_, rfl, rfl, rfl, .inl rfl⟩
  · obtain ⟨c, r, rfl, -, -, -, hcolon, -⟩ := opensLine_spec hopens
    refine ⟨⟨c :: r, line, n, true, []⟩, skip_indented hopens, skip_of_opensLine hopens, ?_,
      .inr hn⟩
    simp [Input.atMark, hcolon]

/-! ## 2. Values on the line of their key -/

/-- What is known of the first character of a quote, a bracket or a plain
scalar. -/
theorem opensContent_spec {text : List Char} (h : opensContent text = true) :
    ∃ c rest, text = c :: rest ∧ isBreak c = false ∧ isBlank c = false ∧
      c ∉ ['#', '&', '!', '|', '>'] ∧ (c ∈ ['-', '?', ':'] → spaceOrEnd rest = false) := by
  cases text with
  | nil => cases h
  | cons c rest =>
    refine ⟨c, rest, rfl, ?_⟩
    simp only [opensContent, Bool.or_eq_true, List.head?_cons, beq_iff_eq, Option.some.injEq,
      or_assoc] at h
    rcases h with h | rfl | rfl | rfl
    · by_cases hmark : c ∈ ['-', '?', ':']
      · simp only [List.mem_cons, List.not_mem_nil, or_false] at hmark
        rcases hmark with rfl | rfl | rfl
        all_goals exact ⟨rfl, rfl, by decide, fun _ => by simpa [startsPlain] using h⟩
      · have hne := hmark
        simp only [List.mem_cons, List.not_mem_nil, or_false, not_or] at hne
        simp only [startsPlain, hne, beq_eq_false_iff_ne.mpr, ne_eq, not_false_eq_true,
          Bool.or_self, Bool.false_eq_true, if_false, Bool.and_eq_true, Bool.not_eq_true'] at h
        obtain ⟨⟨hblank, hbreak⟩, hother⟩ := h
        refine ⟨hbreak, hblank, ?_, fun h => absurd h hmark⟩
        simp at hother
        simp [hother]
    all_goals exact ⟨rfl, rfl, by decide, fun h => absurd h (by decide)⟩

section Values

variable {fuel parent column line start : Nat} {keyAllowed : Bool} {text tail : List Char}
  {P : Node → Prop}

theorem blockNode_content {i : Input} (h : opensContent i.rest = true) :
    blockNode (fuel + 1) parent i =
      content fuel false parent i >>= fun (node, j) => afterNode fuel i node j := by
  obtain ⟨c, rest, hrest, -, -, hother, hmark⟩ := opensContent_spec h
  have hatMark : ∀ m ∈ ['-', '?', ':'], i.atMark m = false := by
    intro m hm
    simp only [Input.atMark, hrest, Bool.and_eq_false_iff]
    by_cases hc : c = m
    · exact .inr (hmark (hc ▸ hm))
    · exact .inl (beq_eq_false_iff_ne.mpr hc)
  have hdash := hatMark '-' (by decide)
  have hkey := hatMark '?' (by decide)
  have hcolon := hatMark ':' (by decide)
  simp only [List.mem_cons, List.not_mem_nil, or_false, not_or] at hother
  rw [blockNode]
  simp [hdash, hkey, hcolon, atProperty, hrest, hother]

/-- A node that no colon follows is no key. -/
theorem afterNode_end {i j : Input} (h : (j.skip false).atMark ':' = false) (node : Node) :
    afterNode (fuel + 1) i node j = .ok (node, j) := by
  simp [afterNode, h]

/-- A text is read as the node that belongs to a mark at a column. -/
def ReadsBelow (column : Nat) (text : List Char) (P : Node → Prop) : Prop :=
  ∀ ⦃fuel line start : Nat⦄ (keyAllowed : Bool) ⦃tail : List Char⦄, text.length + 8 ≤ fuel →
    column < start → Outdents (column + 1) tail →
    Yields (below fuel column false ⟨text ++ tail, line, start, keyAllowed, []⟩) P tail

theorem ReadsBelow.imp {Q : Node → Prop} (h : ReadsBelow column text P)
    (himp : ∀ node, P node → Q node) : ReadsBelow column text Q :=
  fun _ _ _ keyAllowed _ hfuel hstart htail => (h keyAllowed hfuel hstart htail).imp himp

/-- A value behind its key. -/
theorem ReadsContent.below (h : ReadsContent (column + 1) text P) :
    ReadsBelow column (' ' :: text) P := by
  intro fuel line start keyAllowed tail hfuel hstart htail
  obtain ⟨fuel, rfl⟩ : ∃ n, fuel = n + 3 := ⟨fuel - 3, by omega⟩
  rw [List.length_cons] at hfuel
  obtain ⟨hopens, node, k, hread, hnode, line', hskip⟩ :=
    @h (fuel + 1) line (start + 1) false tail (by omega) (by omega) (by omega) htail
  obtain ⟨j, hj, -, hcolon, -⟩ := htail.skip_atLine line'
  obtain ⟨c, rest, hrest, hbreak, hblank, hother, -⟩ := opensContent_spec hopens
  refine ⟨node, k, ?_, hnode, line', hskip⟩
  have hspace : Input.skip false ⟨' ' :: text ++ tail, line, start, false, []⟩ =
      ⟨text ++ tail, line, start + 1, false, []⟩ := by
    rw [List.cons_append, ← List.singleton_append, ← List.replicate_one, Input.skip_spaces, hrest]
    exact Input.skip_content hbreak hblank (fun h => hother (h ▸ List.mem_cons_self)) rest
  have hend : Input.atEnd ⟨text ++ tail, line, start + 1, false, []⟩ = false := by
    simp [Input.atEnd, hrest]
  have hafter := @afterNode_end fuel ⟨text ++ tail, line, start + 1, false, []⟩ k
    (by rw [hskip, hj, hcolon]) node
  rw [Yaml.below]
  simp only [hspace, hend, Bool.false_eq_true, if_false]
  rw [if_pos (by omega), blockNode_content hopens, hread]
  exact hafter

end Values

/-! ## 3. Lists between brackets -/

section Words

variable {fuel parent line column : Nat} {keyAllowed inFlow : Bool} {w stop : List Char}

end Words

/-! ## 4. Mappings -/

/-- A key, the text of its value behind the colon, and what that stands for. -/
structure Entry where
  key : List Char
  text : List Char
  Means : Node → Prop

namespace Entry

/-- Whether a word can be a key as it is. -/
def isKey (w : List Char) : Bool := !w.isEmpty && w.all Char.isLower && w.length ≤ 1024

/-- An entry whose key stands at a column is read as a key and a value. -/
structure Reads (column : Nat) (e : Entry) : Prop where
  isKey : isKey e.key = true
  spaced : e.text.head?.any (fun c => isBlank c || isBreak c) = true
  writable : ∀ c ∈ e.text, isWritable c = true
  below : ReadsBelow column e.text e.Means

/-- The lines of an entry but for the indentation of the first. -/
def body (e : Entry) : List Char := e.key ++ ':' :: e.text

/-- The lines of an entry. -/
def lines (column : Nat) (e : Entry) : List Char := List.replicate column ' ' ++ e.body

/-- The lines of some entries but for the indentation of the first. -/
def mappingText (column : Nat) : List Entry → List Char
  | [] => []
  | e :: es => e.body ++ es.flatMap (lines column)

/-- A key and a value are those of the entry. -/
def Matches (e : Entry) (p : Node × Node) : Prop :=
  (∃ line, p.1 = .scalar none false (String.ofList e.key) line) ∧ e.Means p.2

end Entry

section Mappings

variable {fuel column line : Nat} {e : Entry} {tail : List Char}

theorem Entry.Reads.nonempty (he : e.Reads column) : e.key ≠ [] := by
  have hkey := he.isKey
  simp only [Entry.isKey, Bool.and_eq_true, Bool.not_eq_true', List.isEmpty_eq_false_iff] at hkey
  exact hkey.1.1

theorem Entry.Reads.short (he : e.Reads column) : e.key.length ≤ 1024 := by
  have hkey := he.isKey
  simp only [Entry.isKey, Bool.and_eq_true, decide_eq_true_eq] at hkey
  exact hkey.2

theorem Entry.Reads.spaceOrEnd_text (he : e.Reads column) :
    spaceOrEnd (e.text ++ tail) = true := by
  have hspaced := he.spaced
  cases htext : e.text with
  | nil => simp [htext] at hspaced
  | cons c rest => simpa [spaceOrEnd, htext] using hspaced

/-- The colon behind a key is seen as such. -/
theorem Entry.Reads.colon (he : e.Reads column) (keyAllowed : Bool) :
    Input.skip false ⟨':' :: (e.text ++ tail), line, column + e.key.length, keyAllowed, []⟩ =
        ⟨':' :: (e.text ++ tail), line, column + e.key.length, keyAllowed, []⟩ ∧
      Input.atMark ⟨':' :: (e.text ++ tail), line, column + e.key.length, keyAllowed, []⟩ ':' =
        true ∧
      isKeyFrom ⟨e.body ++ tail, line, column, true, []⟩
        ⟨':' :: (e.text ++ tail), line, column + e.key.length, keyAllowed, []⟩ = true := by
  refine ⟨Input.skip_content rfl rfl (by decide) _, ?_, ?_⟩
  · simp [Input.atMark, he.spaceOrEnd_text]
  · simp [isKeyFrom, he.short]

/-- A text is read as a node whose first line starts at a column. -/
def ReadsBlock (column : Nat) (text : List Char) (P : Node → Prop) : Prop :=
  ∀ ⦃fuel line parent : Nat⦄ ⦃tail : List Char⦄, text.length + 8 ≤ fuel → Outdents column tail →
    opensLine (text ++ tail) = true ∧
      Yields (blockNode fuel parent ⟨text ++ tail, line, column, true, []⟩) P tail

theorem ReadsBlock.imp {text : List Char} {P Q : Node → Prop} (h : ReadsBlock column text P)
    (himp : ∀ node, P node → Q node) : ReadsBlock column text Q := by
  intro fuel line parent tail hfuel htail
  obtain ⟨hopens, hyields⟩ := @h fuel line parent tail hfuel htail
  exact ⟨hopens, hyields.imp himp⟩

end Mappings

/-! ## 5. Lists -/

/-- The text of a list entry behind its mark, and what it stands for. -/
structure Item where
  text : List Char
  Means : Node → Prop

/-- The lines of an entry whose mark stands at a column. -/
def Item.lines (column : Nat) (a : Item) : List Char :=
  List.replicate column ' ' ++ '-' :: ' ' :: a.text

section Lists

variable {fuel column line : Nat} {a : Item} {as : List Item} {tail : List Char}

end Lists

/-! ## 6. Documents -/

end RegAsm.Yaml
