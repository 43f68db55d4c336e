/-
RegAsm.Proofs.YamlScalars — a scalar is read as what it stands for.

A text on one line stands without quotes, between single quotes or between double
quotes.  Each style has its own reader, and each reader joins lines as it goes
(`Fold`).  What a reader holds is known from `Fold.join`, the text it would give if
it stopped: a character, a blank or a line end adds itself to that, as long as no
line end comes next to blanks.

1. Joined lines.
2. Double quotes.
3. Single quotes.
4. Lines.
5. No quotes.
6. Numbers.
7. Scalars of one line.
8. Characters of a scalar.
-/
import RegAsm.Proofs.Documents
import RegAsm.Yaml.Decoder
import RegAsm.Yaml.Reader

namespace RegAsm.Yaml

/-! ## 1. Joined lines -/

namespace Fold

theorem join_push (f : Fold) (c : Char) : (f.push c).join = c :: f.join := rfl

theorem join_pushBlank {f : Fold} (h : f.lead = none) (c : Char) :
    (f.pushBlank c).join = c :: f.join := by
  simp [pushBlank, h, join]

end Fold

/-! ## 2. Double quotes -/

section Double

variable {i : Input} {f : Fold} {line column : Nat}

end Double

/-! ## 3. Single quotes -/

/-- Inside a line: no line end came since the last character. -/
def Fold.Within (f : Fold) : Prop := f.lead = none ∧ f.trail = []

/-- Behind a line end that is not joined to a space. -/
def Fold.Behind (f : Fold) : Prop := ∃ b, f.lead = some [b] ∧ b ≠ '\n'

namespace Fold

variable {f : Fold} {c : Char}

theorem within_push (f : Fold) (c : Char) : (f.push c).Within := ⟨rfl, rfl⟩

theorem Within.pushBlank (h : f.Within) (c : Char) : (f.pushBlank c).Within := by
  simp [Fold.pushBlank, Within, h.1, h.2]

theorem Within.behind_pushBreak (h : f.Within) (hc : c ≠ '\n') : (f.pushBreak c).Behind := by
  refine ⟨c, ?_, hc⟩
  simp [pushBreak, h.1]

theorem Within.join_pushBreak (h : f.Within) (hc : c ≠ '\n') (hblanks : f.blanks = []) :
    (f.pushBreak c).join = c :: f.join := by
  simp [pushBreak, h.1, h.2, join, hblanks, hc]

theorem Behind.pushBreak (h : f.Behind) (c : Char) : (f.pushBreak c).Behind := by
  obtain ⟨b, hlead, hb⟩ := h
  exact ⟨b, by simp [Fold.pushBreak, hlead], hb⟩

theorem Behind.join_pushBreak (h : f.Behind) (c : Char) : (f.pushBreak c).join = c :: f.join := by
  obtain ⟨b, hlead, hb⟩ := h
  simp [Fold.pushBreak, hlead, join, hb]

theorem Behind.pushBlank (h : f.Behind) (c : Char) : f.pushBlank c = f := by
  obtain ⟨b, hlead, -⟩ := h
  simp [Fold.pushBlank, hlead]

end Fold

theorem ne_of_isBreak {c d : Char} (hc : isBreak c = true) (hd : isBreak d = false) : c ≠ d := by
  rintro rfl
  rw [hc] at hd
  cases hd

theorem isBorder_of_ne {c : Char} (hdash : c ≠ '-') (hdot : c ≠ '.') (rest : List Char) :
    isBorder (c :: rest) = false := by
  unfold isBorder
  split <;> simp_all

/-- A blank that can be written is a space. -/
theorem eq_space_of_isBlank {c : Char} (hc : isWritable c = true) (hblank : isBlank c = true) :
    c = ' ' := by
  simp only [isBlank, Bool.or_eq_true, beq_iff_eq] at hblank
  rcases hblank with rfl | rfl
  · rfl
  · cases hc

theorem hasPair_cons (p q : Char → Bool) (c : Char) (text : List Char) :
    hasPair p q (c :: text) = (p c && text.head?.any q || hasPair p q text) := by
  cases text <;> simp [hasPair]

section Single

variable {i : Input} {f : Fold} {line column : Nat}

/-- The indentation of a line is dropped. -/
theorem singleFrom_spaces (hf : f.Behind) (n : Nat) (rest : List Char) :
    singleFrom i f line column (List.replicate n ' ' ++ rest) =
      singleFrom i f line (column + n) rest := by
  induction n generalizing column with
  | zero => rfl
  | succ n ih =>
    rw [List.replicate_succ, List.cons_append, singleFrom]
    · simp [isBorder, isBreak, isBlank, hf.pushBlank, ih, Nat.add_assoc, Nat.add_comm 1]
    · simp

/-- A character that is written as itself or, if it is a quote, twice. -/
theorem singleFrom_char (hcolumn : 0 < column) {c : Char} (hbreak : isBreak c = false)
    (hf : f.Within ∨ isBlank c = false) (rest : List Char) :
    ∃ f' column', f'.Within ∧ f'.join = c :: f.join ∧ (f'.blanks ≠ [] → isBlank c = true) ∧
      0 < column' ∧
      singleFrom i f line column ((if c = '\'' then ['\'', '\''] else [c]) ++ rest) =
        singleFrom i f' line column' rest := by
  have hstart : (column == 0) = false := beq_eq_false_iff_ne.mpr (Nat.ne_of_gt hcolumn)
  by_cases hquote : c = '\''
  · subst hquote
    refine ⟨f.push '\'', column + 2, f.within_push _, f.join_push _, fun h => absurd rfl h,
      Nat.succ_pos _, ?_⟩
    rw [if_pos rfl, List.cons_append, List.cons_append, singleFrom]
    rfl
  · rw [if_neg hquote, List.singleton_append, singleFrom]
    · cases hblank : isBlank c with
      | true =>
        have hwithin := hf.resolve_right (by rw [hblank]; simp)
        refine ⟨f.pushBlank c, column + 1, hwithin.pushBlank c, Fold.join_pushBlank hwithin.1 c,
          fun _ => rfl, Nat.succ_pos _, ?_⟩
        simp [hstart, hquote, hbreak]
      | false =>
        refine ⟨f.push c, column + 1, f.within_push c, f.join_push c, fun h => absurd rfl h,
          Nat.succ_pos _, ?_⟩
        simp [hstart, hquote, hbreak]
    · exact fun rest' h _ => hquote h

theorem singleFrom_break {c : Char} (hbreak : isBreak c = true) (rest : List Char) :
    singleFrom i f line column (c :: rest) = singleFrom i (f.pushBreak c) (line + 1) 0 rest := by
  have hborder : isBorder (c :: rest) = false :=
    isBorder_of_ne (ne_of_isBreak hbreak (by decide)) (ne_of_isBreak hbreak (by decide)) rest
  have hquote : c ≠ '\'' := ne_of_isBreak hbreak (by decide)
  rw [singleFrom]
  · simp [hborder, hquote, hbreak]
  · exact fun rest' h _ => hquote h

theorem singleFrom_close (column : Nat) {stop : List Char} (hstop : stop.head? ≠ some '\'') :
    singleFrom i f line column ('\'' :: stop) = .ok (String.ofList f.join.reverse,
      { i with rest := stop, line, column := column + 1, keyAllowed := false }) := by
  rw [singleFrom]
  · simp [isBorder]
  · rintro rest - rfl
    exact hstop rfl

/-- What a fold is like between two characters of a text, the second of which
comes next. -/
def Fold.Between (f : Fold) (afterBreak : Bool) (column : Nat) (text : List Char) : Prop :=
  match afterBreak with
  | true => f.Behind ∧ text.head?.any (· == ' ') = false
  | false => f.Within ∧ 0 < column ∧ (f.blanks ≠ [] → text.head?.any isBreak = false)

/-- The rest of a text is read from what stands for it up to the closing quote. -/
def ReadsSingle (i : Input) (stop : List Char) (afterBreak : Bool) (text form : List Char) :
    Prop :=
  ∀ ⦃f : Fold⦄ ⦃line column : Nat⦄, f.Between afterBreak column text → ∃ line' column',
    singleFrom i f line column (form ++ '\'' :: stop) =
      .ok (String.ofList (f.join.reverse ++ text),
        { i with rest := stop, line := line', column := column', keyAllowed := false })

/-- A character inside a line is read from any column but the first. -/
theorem ReadsSingle.char {text form stop : List Char} (h : ReadsSingle i stop false text form)
    {c : Char} (hc : isBreak c = false) (hshown : isWritable c = true)
    (hpair : (c == ' ' && text.head?.any isBreak) = false)
    (hstate : f.Within ∨ isBlank c = false) (hcolumn : 0 < column) :
    ∃ line' column', singleFrom i f line column
        (((if c = '\'' then ['\'', '\''] else [c]) ++ form) ++ '\'' :: stop) =
      .ok (String.ofList (f.join.reverse ++ c :: text),
        { i with rest := stop, line := line', column := column', keyAllowed := false }) := by
  obtain ⟨f', column₁, hwithin, hjoin, hblanks, hcolumn₁, hstep⟩ :=
    @singleFrom_char i f line column hcolumn c hc hstate (form ++ '\'' :: stop)
  have hnext : f'.blanks ≠ [] → text.head?.any isBreak = false := by
    intro hne
    simpa [eq_space_of_isBlank hshown (hblanks hne)] using hpair
  obtain ⟨line', column', hread⟩ := @h f' line column₁ ⟨hwithin, hcolumn₁, hnext⟩
  refine ⟨line', column', ?_⟩
  rw [List.append_assoc, hstep, hread, hjoin, List.reverse_cons, List.append_assoc,
    List.singleton_append]

/-- What stands between single quotes is read.  Blanks next to a line end would be
dropped, but a text with such a pair does not stand there. -/
theorem SingleForm.reads {text form stop : List Char} {afterBreak : Bool}
    (h : SingleForm afterBreak text form)
    (hwritable : ∀ c ∈ text, isWritable c = true ∧ c ≠ '\n')
    (hspace : hasPair (· == ' ') isBreak text = false)
    (hbreak : hasPair isBreak (· == ' ') text = false) (hstop : stop.head? ≠ some '\'') :
    ReadsSingle i stop afterBreak text form := by
  induction h with
  | nil =>
    intro f line column hf
    exact ⟨line, column + 1, by simp [singleFrom_close column hstop]⟩
  | @lineEnd afterBreak c text form ends rest ih =>
    intro f line column hf
    obtain ⟨⟨-, hfeed⟩, hwritable⟩ := List.forall_mem_cons.mp hwritable
    rw [hasPair_cons, Bool.or_eq_false_iff] at hspace hbreak
    have hnext : text.head?.any (· == ' ') = false := by simpa [ends] using hbreak.1
    have hjoin : (f.pushBreak c).Behind ∧ (f.pushBreak c).join = c :: f.join := by
      cases afterBreak with
      | true => exact ⟨hf.1.pushBreak c, hf.1.join_pushBreak c⟩
      | false =>
        obtain ⟨hwithin, -, hblanks⟩ := hf
        have hnil : f.blanks = [] := by
          by_contra hne
          simpa [ends] using hblanks hne
        exact ⟨hwithin.behind_pushBreak hfeed, hwithin.join_pushBreak hfeed hnil⟩
    obtain ⟨line', column', hread⟩ :=
      @ih hwritable hspace.2 hbreak.2 (f.pushBreak c) (line + 1) 0 ⟨hjoin.1, hnext⟩
    refine ⟨line', column', ?_⟩
    rw [List.cons_append, singleFrom_break ends, hread, hjoin.2, List.reverse_cons,
      List.append_assoc, List.singleton_append]
  | @char c text form inLine rest ih =>
    intro f line column hf
    obtain ⟨⟨hshown, -⟩, hwritable⟩ := List.forall_mem_cons.mp hwritable
    rw [hasPair_cons, Bool.or_eq_false_iff] at hspace hbreak
    exact (ih hwritable hspace.2 hbreak.2).char inLine hshown hspace.1 (.inl hf.1) hf.2.1
  | @indented c spaces text form inLine positive rest ih =>
    intro f line column hf
    obtain ⟨⟨hshown, -⟩, hwritable⟩ := List.forall_mem_cons.mp hwritable
    rw [hasPair_cons, Bool.or_eq_false_iff] at hspace hbreak
    have hblank : isBlank c = false := by
      rw [Bool.eq_false_iff]
      intro hblank
      simpa [eq_space_of_isBlank hshown hblank] using hf.2
    rw [List.append_assoc, singleFrom_spaces hf.1]
    exact (ih hwritable hspace.2 hbreak.2).char inLine hshown hspace.1 (.inr hblank)
      (Nat.lt_add_left column positive)

end Single

/-! ## 4. Lines -/

namespace Input

variable {inFlow : Bool} {line column : Nat} {keyAllowed : Bool} {anchors : List (String × Node)}

/-- Nothing is skipped at a character that is neither blank nor starts a
comment. -/
theorem skip_content {c : Char} (hbreak : isBreak c = false) (hblank : isBlank c = false)
    (hhash : c ≠ '#') (rest : List Char) :
    skip inFlow ⟨c :: rest, line, column, keyAllowed, anchors⟩ =
      ⟨c :: rest, line, column, keyAllowed, anchors⟩ := by
  simp only [isBlank, Bool.or_eq_false_iff] at hblank
  simp [skip, skipFrom, hbreak, hblank, hhash]

theorem skip_spaces (n : Nat) (rest : List Char) :
    skip inFlow ⟨List.replicate n ' ' ++ rest, line, column, keyAllowed, anchors⟩ =
      skip inFlow ⟨rest, line, column + n, keyAllowed, anchors⟩ := by
  induction n generalizing column with
  | zero => rfl
  | succ n ih =>
    rw [← Nat.add_assoc, Nat.add_right_comm, ← ih]
    rfl

end Input

/-- Whether a text opens with a key or with the mark of a list entry. -/
def opensLine : List Char → Bool
  | [] => false
  | c :: rest => c.isLower || (c == '-' && rest.head? == some ' ')

/-- The text ends, or it goes on with a line that is indented by fewer than
`limit` spaces. -/
def Outdents (limit : Nat) (tail : List Char) : Prop :=
  tail = [] ∨ ∃ indent rest, indent < limit ∧ opensLine rest = true ∧
    tail = List.replicate indent ' ' ++ rest

theorem Outdents.mono {limit limit' : Nat} {tail : List Char} (h : Outdents limit tail)
    (hle : limit ≤ limit') : Outdents limit' tail := by
  rcases h with rfl | ⟨indent, rest, hlt, hrest⟩
  · exact .inl rfl
  · exact .inr ⟨indent, rest, Nat.lt_of_lt_of_le hlt hle, hrest⟩

/-- The characters that mean something to the reader where a scalar starts or
ends. -/
def formatMarks : List Char :=
  ['#', ',', '[', ']', '\x7b', '\x7d', '&', '*', '!', '|', '>', '\'', '"', '%', '@', '\x60', '?',
    ':', '-', '.']

theorem toNat_lt_of_isAlphanum {c : Char} (h : c.isAlphanum = true) : c.toNat < 123 := by
  simp only [Char.isAlphanum, Char.isAlpha, Char.isUpper, Char.isLower, Char.isDigit,
    Bool.or_eq_true, Bool.and_eq_true, decide_eq_true_eq, UInt32.le_iff_toNat_le] at h
  change (65 ≤ c.toNat ∧ c.toNat ≤ 90 ∨ 97 ≤ c.toNat ∧ c.toNat ≤ 122) ∨
    48 ≤ c.toNat ∧ c.toNat ≤ 57 at h
  omega

/-- A letter or a digit is nothing but itself. -/
theorem alphanum_spec {c : Char} (h : c.isAlphanum = true) :
    isWritable c = true ∧ isBreak c = false ∧ isBlank c = false ∧ c ∉ formatMarks := by
  have hall : ∀ n < 123, (Char.ofNat n).isAlphanum = true → isWritable (Char.ofNat n) = true ∧
      isBreak (Char.ofNat n) = false ∧ isBlank (Char.ofNat n) = false ∧
      Char.ofNat n ∉ formatMarks := by
    decide +kernel
  have hc := hall c.toNat (toNat_lt_of_isAlphanum h)
  rw [Char.ofNat_toNat] at hc
  exact hc h

theorem opensLine_spec {rest : List Char} (h : opensLine rest = true) :
    ∃ c r, rest = c :: r ∧ isBreak c = false ∧ isBlank c = false ∧ c ≠ '#' ∧ c ≠ ':' ∧
      isBorder rest = false := by
  cases rest with
  | nil => cases h
  | cons c r =>
    simp only [opensLine, Bool.or_eq_true, Bool.and_eq_true, beq_iff_eq] at h
    refine ⟨c, r, rfl, ?_⟩
    rcases h with hlower | ⟨rfl, hspace⟩
    · obtain ⟨-, hbreak, hblank, hmark⟩ := alphanum_spec (c := c) (by
        simp [Char.isAlphanum, Char.isAlpha, hlower])
      simp only [formatMarks, List.mem_cons, not_or] at hmark
      exact ⟨hbreak, hblank, hmark.1, by tauto, isBorder_of_ne (by tauto) (by tauto) r⟩
    · cases r with
      | nil => cases hspace
      | cons d r =>
        cases hspace
        exact ⟨rfl, rfl, by decide, by decide, rfl⟩

/-- The start of a line, with the text from there on. -/
def atLine (tail : List Char) (line : Nat) : Input := { rest := tail, line }

/-! ## 5. No quotes -/

section Plain

variable {i : Input} {f : Fold} {line column indent : Nat}

end Plain

/-! ## 6. Numbers -/

/-- A reader takes a node and stops before the lines in `tail`. -/
def Yields (result : Except Malformed (Node × Input)) (P : Node → Prop) (tail : List Char) : Prop :=
  ∃ node k, result = .ok (node, k) ∧ P node ∧ ∃ line, k.skip false = (atLine tail line).skip false

theorem Yields.imp {result : Except Malformed (Node × Input)} {P Q : Node → Prop}
    {tail : List Char} (h : Yields result P tail) (himp : ∀ node, P node → Q node) :
    Yields result Q tail := by
  obtain ⟨node, k, hresult, hnode, hk⟩ := h
  exact ⟨node, k, hresult, himp node hnode, hk⟩

/-- Whether a quote, a bracket or a plain scalar stands here. -/
def opensContent (text : List Char) : Bool :=
  startsPlain false text || text.head? == some '\'' || text.head? == some '"' ||
    text.head? == some '['

/-- A text is read as one node inside lines that start at column `parent` or
after, whatever lines follow that start before it. -/
def ReadsContent (parent : Nat) (text : List Char) (P : Node → Prop) : Prop :=
  ∀ ⦃fuel line column : Nat⦄ (keyAllowed : Bool) ⦃tail : List Char⦄, text.length + 4 ≤ fuel →
    0 < column → parent ≤ column → Outdents parent tail →
    opensContent (text ++ tail) = true ∧
      Yields (content fuel false parent ⟨text ++ tail, line, column, keyAllowed, []⟩) P tail

section Scalars

variable {parent : Nat} {text : List Char} {P Q : Node → Prop}

theorem ReadsContent.imp (h : ReadsContent parent text P) (himp : ∀ node, P node → Q node) :
    ReadsContent parent text Q := by
  intro fuel line column keyAllowed tail hfuel hcolumn hparent htail
  obtain ⟨hopens, hyields⟩ := h keyAllowed hfuel hcolumn hparent htail
  exact ⟨hopens, hyields.imp himp⟩

end Scalars

/-! ## 8. Characters of a scalar -/

theorem isWritable_of_isDigitOf {base : Nat} {c : Char} (h : Recognizer.isDigitOf base c = true) :
    isWritable c = true := by
  have hrange := Recognizer.toNat_of_isDigitOf h
  simp only [isWritable, Bool.or_eq_true, Bool.and_eq_true, decide_eq_true_eq]
  omega

theorem DoubleForm.isWritable {text form : List Char} (h : DoubleForm text form) :
    ∀ c ∈ form, isWritable c = true := by
  have hletters : ∀ p ∈ escapeLetters ++ codeLetters, Yaml.isWritable p.1 = true := by decide
  induction h with
  | nil => simp
  | char shown inLine quote slash rest ih => exact List.forall_mem_cons.mpr ⟨shown, ih⟩
  | letter known rest ih =>
    have hletter := hletters _ (List.mem_append_left _ known)
    exact List.forall_mem_cons.mpr ⟨rfl, List.forall_mem_cons.mpr ⟨hletter, ih⟩⟩
  | code known hex value rest ih =>
    have hletter := hletters _ (List.mem_append_right _ known)
    refine List.forall_mem_cons.mpr ⟨rfl, List.forall_mem_cons.mpr ⟨hletter, ?_⟩⟩
    exact List.forall_mem_append.mpr ⟨fun d hd => isWritable_of_isDigitOf (hex d hd), ih⟩

theorem SingleForm.isWritable {afterBreak : Bool} {text form : List Char}
    (h : SingleForm afterBreak text form) (htext : ∀ c ∈ text, isWritable c = true) :
    ∀ c ∈ form, isWritable c = true := by
  have hquote : ∀ {c : Char}, Yaml.isWritable c = true →
      ∀ d ∈ (if c = '\'' then ['\'', '\''] else [c]), Yaml.isWritable d = true := by
    intro c hc d hd
    split at hd
    · simp only [List.mem_cons, List.not_mem_nil, or_false, or_self] at hd
      rw [hd]
      rfl
    · rw [List.mem_singleton.mp hd]
      exact hc
  induction h with
  | nil => simp
  | lineEnd ends rest ih =>
    obtain ⟨hc, htext⟩ := List.forall_mem_cons.mp htext
    exact List.forall_mem_cons.mpr ⟨hc, ih htext⟩
  | char inLine rest ih =>
    obtain ⟨hc, htext⟩ := List.forall_mem_cons.mp htext
    exact List.forall_mem_append.mpr ⟨hquote hc, ih htext⟩
  | indented inLine positive rest ih =>
    obtain ⟨hc, htext⟩ := List.forall_mem_cons.mp htext
    refine List.forall_mem_append.mpr ⟨fun d hd => ?_, ?_⟩
    · rw [List.eq_of_mem_replicate hd]
      rfl
    · exact List.forall_mem_append.mpr ⟨hquote hc, ih htext⟩

/-- A scalar stands in characters that a document can hold. -/
theorem Denotes.isWritable {isText : String → Prop} {form : List Char} {s : String}
    (h : Denotes isText form s) : ∀ c ∈ form, isWritable c = true := by
  have hquoted : ∀ {quote : Char} {body : List Char}, Yaml.isWritable quote = true →
      (∀ c ∈ body, Yaml.isWritable c = true) →
      ∀ c ∈ quote :: body ++ [quote], Yaml.isWritable c = true := by
    intro quote body hquote hbody
    simp only [List.forall_mem_append, List.forall_mem_cons]
    exact ⟨⟨hquote, hbody⟩, hquote, by simp⟩
  cases h with
  | plain text line => exact fun c hc => (line.shown c hc).1
  | single allowed oneLine stands =>
    simp only [singleAllowed, Bool.and_eq_true, List.all_eq_true] at allowed
    exact hquoted rfl (stands.isWritable allowed.1.1)
  | double stands => exact hquoted rfl stands.isWritable

end RegAsm.Yaml
