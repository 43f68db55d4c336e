/-
RegAsm.Proofs.Indifference — where a token stands decides nothing.

Tokens carry their places, and a parser hands them on to the statements it
reads.  Two lists of tokens that differ in nothing but places are read in step:
at every moment the two parsers stand at the same index and remember the same,
places aside (`Production.InStep`).  So they stop at the same token, or they
read the same statements, and as the places in statements do not matter either,
these have the same image or fail for the same reason.

1. Streams and memories in step.
2. Productions in step.
3. Operands.
4. Statements.
5. Parsers.
6. Images.
-/
import Mathlib
import RegAsm.Proofs.Places

namespace RegAsm

open Machine
open Source (Cursor Position)

/-! ## 1. Streams and memories -/

/-- Tokens are the same, places aside, if they agree in all the rest. -/
theorem Token.unplaced_eq_iff {t t' : Token} : t.unplaced = t'.unplaced ↔
    t.kind = t'.kind ∧ t.text = t'.text ∧ t.value = t'.value ∧ t.id = t'.id := by
  simp [unplaced]

/-- Two streams over lists of tokens, which differ in places only, stand at the
same index. -/
structure TokenStream.InStep (all all' : List Token) (s s' : TokenStream) : Prop where
  tokens : all.map Token.unplaced = all'.map Token.unplaced
  index : s'.cursor.index = s.cursor.index
  rest : s.cursor.rest = all.drop s.cursor.index
  rest' : s'.cursor.rest = all'.drop s.cursor.index
  eof : s.eof.kind = .eof
  unplaced_eof : s.eof.unplaced = s'.eof.unplaced

/-- The product without its places. -/
def Product.unplaced : Product → Product
  | .statement s => .statement s.unplaced
  | .operand o => .operand o.unplaced

/-- Two memories hold the same, places aside. -/
structure Memo.InStep (m m' : Memo) : Prop where
  enabled : m.enabled = m'.enabled
  find? : ∀ i rule, (m.find? i rule).map (fun (product, stop) => (product.unplaced, stop)) =
    (m'.find? i rule).map fun (product, stop) => (product.unplaced, stop)

variable {all all' : List Token}

/-- Before the end, there is a token under the cursor. -/
theorem TokenStream.current?_eq_some {s : TokenStream} (heof : s.eof.kind = .eof)
    (hkind : s.token.kind ≠ .eof) : s.cursor.current? = some s.token := by
  unfold TokenStream.token at hkind ⊢
  cases hcurrent : s.cursor.current? with
  | none =>
    rw [hcurrent] at hkind
    exact absurd heof hkind
  | some t => rfl

namespace TokenStream.InStep

variable {s s' : TokenStream}

theorem map_rest (h : InStep all all' s s') :
    s.cursor.rest.map Token.unplaced = s'.cursor.rest.map Token.unplaced := by
  rw [h.rest, h.rest', List.map_drop, List.map_drop, h.tokens]

/-- The tokens under the cursors are the same, places aside. -/
theorem token (h : InStep all all' s s') : s.token.unplaced = s'.token.unplaced := by
  have hrest := h.map_rest
  unfold TokenStream.token Cursor.current?
  cases hs : s.cursor.rest with
  | nil =>
    rw [hs, List.map_nil, eq_comm, List.map_eq_nil_iff] at hrest
    rw [hrest]
    exact h.unplaced_eof
  | cons t ts =>
    rw [hs, List.map_cons, eq_comm, List.map_eq_cons_iff] at hrest
    obtain ⟨t', ts', hs', ht, -⟩ := hrest
    rw [hs']
    exact ht.symm

theorem kind (h : InStep all all' s s') : s.token.kind = s'.token.kind :=
  (Token.unplaced_eq_iff.mp h.token).1

/-- Before the end, the tokens under the cursors are those at the index. -/
theorem getElem? (h : InStep all all' s s') (hkind : s.token.kind ≠ .eof) :
    all[s.cursor.index]? = some s.token ∧ all'[s.cursor.index]? = some s'.token := by
  have heof' : s'.eof.kind = .eof := (Token.unplaced_eq_iff.mp h.unplaced_eof).1 ▸ h.eof
  have hcurrent := TokenStream.current?_eq_some h.eof hkind
  have hcurrent' := TokenStream.current?_eq_some heof' (h.kind ▸ hkind)
  rw [Cursor.current?, h.rest, List.head?_drop] at hcurrent
  rw [Cursor.current?, h.rest', List.head?_drop] at hcurrent'
  exact ⟨hcurrent, hcurrent'⟩

/-- Streams in step move on in step. -/
theorem advance (h : InStep all all' s s') (n : Nat) :
    InStep all all' (s.advance n) (s'.advance n) := by
  induction n generalizing s s' with
  | zero => exact h
  | succ n ih =>
    have hrest := h.map_rest
    obtain ⟨⟨rest, i, pos, marks, ends⟩, eof⟩ := s
    obtain ⟨⟨rest', i', pos', marks', ends'⟩, eof'⟩ := s'
    cases rest with
    | nil =>
      cases rest' with
      | nil => exact h
      | cons t' ts' => cases hrest
    | cons t ts =>
      cases rest' with
      | nil => cases hrest
      | cons t' ts' =>
        have htail : ts = all.drop (i + 1) := by
          rw [← List.tail_drop, ← h.rest, List.tail_cons]
        have htail' : ts' = all'.drop (i + 1) := by
          rw [← List.tail_drop, ← h.rest', List.tail_cons]
        exact @ih ⟨⟨ts, i + 1, pos.next (ends t), marks, ends⟩, eof⟩
          ⟨⟨ts', i' + 1, pos'.next (ends' t'), marks', ends'⟩, eof'⟩
          ⟨h.tokens, congrArg (· + 1) h.index, htail, htail', h.eof, h.unplaced_eof⟩

end TokenStream.InStep

namespace Memo

theorem inStep_empty (enabled : Bool) : InStep (.empty enabled) (.empty enabled) :=
  ⟨rfl, fun _ _ => rfl⟩

theorem InStep.misfit {m m' : Memo} (h : m.InStep m') : InStep m.misfit m'.misfit :=
  ⟨h.enabled, h.find?⟩

/-- Memories in step remember in step. -/
theorem InStep.remember {m m' : Memo} (h : m.InStep m') (i : Nat) (rule : Rule)
    {product product' : Product} (hproduct : product.unplaced = product'.unplaced) (stop : Nat) :
    InStep (m.remember i rule product stop) (m'.remember i rule product' stop) := by
  unfold Memo.remember
  rw [← h.enabled]
  cases hen : m.enabled with
  | false => exact h
  | true =>
    have hen' : m'.enabled = true := h.enabled ▸ hen
    refine ⟨rfl, fun j r => ?_⟩
    have hfind := h.find? j r
    simp only [Memo.find?, hen, hen', if_true] at hfind
    simp only [Memo.find?, if_true, Std.HashMap.getElem?_insert]
    split
    · rw [Option.map_some, Option.map_some, hproduct]
    · exact hfind

end Memo

/-! ## 2. Productions -/

/-- Two productions read the same in step, as far as `view` shows. -/
def Production.InStep {α β : Type} (view : α → β) (p p' : Production α) : Prop :=
  ∀ (all all' : List Token) (s s' : TokenStream) (m m' : Memo),
    s.InStep all all' s' → m.InStep m' →
    Option.Rel (fun r r' => view r.1 = view r'.1 ∧ r.2.InStep all all' r'.2)
      (p s m).1 (p' s' m').1 ∧ (p s m).2.InStep (p' s' m').2

namespace Production

variable {α β γ δ : Type} {view : α → β} {view' : γ → δ}

theorem inStep_pure {a a' : α} (h : view a = view a') :
    InStep view (Pure.pure a : Production α) (Pure.pure a') :=
  fun _ _ _ _ _ _ hs hm => ⟨.some ⟨h, hs⟩, hm⟩

theorem inStep_fail : InStep view fail fail :=
  fun _ _ _ _ _ _ _ hm => ⟨.none, hm⟩

/-- In step, two productions both refuse or both read the same. -/
theorem InStep.outcomes {p p' : Production α} (hp : InStep view p p') {all all' : List Token}
    {s s' : TokenStream} {m m' : Memo} (hs : s.InStep all all' s') (hm : m.InStep m') :
    (∃ memo memo', p s m = (none, memo) ∧ p' s' m' = (none, memo') ∧ memo.InStep memo') ∨
    ∃ r r' memo memo', p s m = (some r, memo) ∧ p' s' m' = (some r', memo') ∧
      memo.InStep memo' ∧ view r.1 = view r'.1 ∧ r.2.InStep all all' r'.2 := by
  obtain ⟨hresult, hmemo⟩ := hp all all' s s' m m' hs hm
  generalize p s m = answer at hresult hmemo ⊢
  generalize p' s' m' = answer' at hresult hmemo ⊢
  obtain ⟨result, memo⟩ := answer
  obtain ⟨result', memo'⟩ := answer'
  cases hresult with
  | none => exact .inl ⟨memo, memo', rfl, rfl, hmemo⟩
  | some h => exact .inr ⟨_, _, memo, memo', rfl, rfl, hmemo, h⟩

theorem InStep.bind {p p' : Production α} {f f' : α → Production γ} (hp : InStep view p p')
    (hf : ∀ a a', view a = view a' → InStep view' (f a) (f' a')) :
    InStep view' (p >>= f) (p' >>= f') := by
  intro all all' s s' m m' hs hm
  change Option.Rel _ (Production.bind p f s m).1 (Production.bind p' f' s' m').1 ∧
    (Production.bind p f s m).2.InStep (Production.bind p' f' s' m').2
  unfold Production.bind
  obtain ⟨memo, memo', h, h', hmemo⟩ | ⟨r, r', memo, memo', h, h', hmemo, hview, hnext⟩ :=
    hp.outcomes hs hm
  · simp only [h, h']
    exact ⟨.none, hmemo⟩
  · simp only [h, h']
    exact hf _ _ hview all all' _ _ _ _ hnext hmemo

theorem inStep_firstOf {ps : List (Production α)} (h : ∀ p ∈ ps, InStep view p p) :
    InStep view (firstOf ps) (firstOf ps) := by
  induction ps with
  | nil => exact inStep_fail
  | cons p ps ih =>
    intro all all' s s' m m' hs hm
    have hrest := ih fun q hq => h q (List.mem_cons_of_mem p hq)
    unfold firstOf
    obtain ⟨memo, memo', hr, hr', hmemo⟩ | ⟨r, r', memo, memo', hr, hr', hmemo, hread⟩ :=
      (h p List.mem_cons_self).outcomes hs hm
    · simp only [hr, hr']
      exact hrest all all' s s' _ _ hs hmemo
    · simp only [hr, hr']
      exact ⟨.some hread, hmemo⟩

theorem InStep.optional {p : Production α} (hp : InStep view p p) :
    InStep (Option.map view) (optional p) (optional p) := by
  intro all all' s s' m m' hs hm
  unfold Production.optional
  obtain ⟨memo, memo', h, h', hmemo⟩ | ⟨r, r', memo, memo', h, h', hmemo, hview, hnext⟩ :=
    hp.outcomes hs hm
  · simp only [h, h']
    exact ⟨.some ⟨rfl, hs⟩, hmemo⟩
  · simp only [h, h']
    exact ⟨.some ⟨congrArg some hview, hnext⟩, hmemo⟩

/-- A production that looks at one token and takes it, without regard to its
place. -/
theorem inStep_token {p : Production α} (g : Token → Option α)
    (hp : ∀ s memo, p s memo = ((g s.token).map fun a => (a, s.advance 1), memo))
    (hg : ∀ t, (g t).map view = (g t.unplaced).map view) : InStep view p p := by
  intro all all' s s' m m' hs hm
  rw [hp, hp]
  refine ⟨?_, hm⟩
  have hview : (g s.token).map view = (g s'.token).map view := by
    rw [hg, hs.token, ← hg]
  cases h : g s.token with
  | none =>
    rw [h, Option.map_none, eq_comm, Option.map_eq_none_iff] at hview
    rw [hview]
    exact .none
  | some a =>
    rw [h, Option.map_some, eq_comm, Option.map_eq_some_iff] at hview
    obtain ⟨a', ha', heq⟩ := hview
    rw [ha']
    exact .some ⟨heq.symm, hs.advance 1⟩

/-- The place is what two productions in step need not agree on. -/
theorem inStep_place : InStep (fun _ => ()) place place :=
  fun _ _ _ _ _ _ hs hm => ⟨.some ⟨rfl, hs⟩, hm⟩

theorem inStep_take (kind : TokenKind) : InStep Token.unplaced (take kind) (take kind) := by
  refine inStep_token (fun t => if t.kind = kind ∧ kind ≠ .eof then some t else none) ?_ ?_
  · intro s memo
    rw [take, TokenStream.take?]
    split <;> rfl
  · intro t
    change (if t.kind = kind ∧ kind ≠ .eof then some t else none).map Token.unplaced =
      (if t.kind = kind ∧ kind ≠ .eof then some t.unplaced else none).map Token.unplaced
    split <;> rfl

theorem inStep_symbol (text : String) : InStep id (symbol text) (symbol text) := by
  refine inStep_token (fun t => if t.kind = .symbol ∧ t.text = text then some () else none) ?_
    fun _ => rfl
  intro s memo
  rw [symbol, TokenStream.symbol?]
  split <;> rfl

theorem inStep_keyword (ms : List Mnemonic) : InStep id (keyword ms) (keyword ms) := by
  refine inStep_token
    (fun t => if t.kind = .mnemonic then ms.find? fun m => t.id = m.index else none) ?_ fun _ => rfl
  intro s memo
  rw [keyword, TokenStream.mnemonic?]
  split <;> rfl

theorem inStep_dataItem : InStep Operand.unplaced dataItem dataItem := by
  refine inStep_token itemOf? ?_ ?_
  · intro s memo
    cases hkind : s.token.kind <;> simp [dataItem, itemOf?, hkind]
  · intro t
    have hkind : t.unplaced.kind = t.kind := rfl
    unfold itemOf?
    rw [hkind]
    split <;> rfl

/-- What is remembered of a product is the product, places aside. -/
class Recalls (α : Type) [Memorable α] (view : outParam (α → α)) : Prop where
  ofProduct? : ∀ x x' : Product, x.unplaced = x'.unplaced →
    ((Memorable.ofProduct? x : Option α).map view) = (Memorable.ofProduct? x').map view
  toProduct : ∀ a a' : α, view a = view a' →
    (Memorable.toProduct a).unplaced = (Memorable.toProduct a').unplaced

/-- A named production is answered from both memories or from neither. -/
theorem InStep.capture [Memorable α] {view : α → α} [Recalls α view] {p : Production α}
    (hp : InStep view p p) (rule : Rule) :
    InStep view (capture rule p) (capture rule p) := by
  intro all all' s s' m m' hs hm
  have hfind := hm.find? s.cursor.index rule
  unfold Production.capture
  rw [hs.index]
  cases h : m.find? s.cursor.index rule with
  | some entry =>
    obtain ⟨product, stop⟩ := entry
    rw [h, Option.map_some, eq_comm, Option.map_eq_some_iff] at hfind
    obtain ⟨⟨product', stop'⟩, h', heq⟩ := hfind
    obtain ⟨hproduct, rfl⟩ := Prod.mk.inj heq
    simp only [h, h']
    have hview := @Recalls.ofProduct? α _ view _ _ _ hproduct
    cases ha : (Memorable.ofProduct? product : Option α) with
    | none =>
      rw [ha, Option.map_none, Option.map_eq_none_iff] at hview
      rw [hview]
      exact ⟨.none, hm.misfit⟩
    | some a =>
      rw [ha, Option.map_some, Option.map_eq_some_iff] at hview
      obtain ⟨a', ha', hview⟩ := hview
      rw [ha']
      exact ⟨.some ⟨hview.symm, hs.advance _⟩, hm⟩
  | none =>
    rw [h, Option.map_none, eq_comm, Option.map_eq_none_iff] at hfind
    obtain ⟨memo, memo', hr, hr', hmemo⟩ | ⟨r, r', memo, memo', hr, hr', hmemo, hview, hnext⟩ :=
      hp.outcomes hs hm
    · simp only [h, hfind, hr, hr']
      exact ⟨.none, hmemo⟩
    · simp only [h, hfind, hr, hr']
      refine ⟨.some ⟨hview, hnext⟩, ?_⟩
      rw [hnext.index]
      exact hmemo.remember _ rule (Recalls.toProduct r.1 r'.1 hview) _

instance : Recalls Operand Operand.unplaced where
  ofProduct? x x' h := by
    cases x with
    | operand o =>
      cases x' with
      | operand o' => exact congrArg some (Product.operand.inj h)
      | statement s' => cases h
    | statement s =>
      cases x' with
      | operand o' => cases h
      | statement s' => rfl
  toProduct o o' h := congrArg Product.operand h

instance : Recalls Statement Statement.unplaced where
  ofProduct? x x' h := by
    cases x with
    | statement s =>
      cases x' with
      | statement s' => exact congrArg some (Product.statement.inj h)
      | operand o' => cases h
    | operand o =>
      cases x' with
      | statement s' => cases h
      | operand o' => rfl
  toProduct s s' h := congrArg Product.statement h

theorem inStep_alternatives [Memorable α] {view : α → α} [Recalls α view]
    {rules : List (Rule × Production α)} (h : ∀ r ∈ rules, InStep view r.2 r.2) :
    InStep view (alternatives rules) (alternatives rules) :=
  inStep_firstOf (List.forall_mem_map.mpr fun r hr => (h r hr).capture r.1)

/-! ## 3. Operands -/

theorem inStep_immediate : InStep Operand.unplaced immediate immediate := by
  refine (inStep_take .number).bind fun t t' h => ?_
  obtain ⟨-, -, hvalue, -⟩ := Token.unplaced_eq_iff.mp h
  rw [hvalue]
  exact inStep_pure rfl

theorem inStep_register : InStep Operand.unplaced register register := by
  refine (inStep_take .register).bind fun t t' h => ?_
  obtain ⟨-, -, -, hid⟩ := Token.unplaced_eq_iff.mp h
  rw [hid]
  exact inStep_pure rfl

theorem inStep_labelName : InStep id labelName labelName := by
  refine (inStep_symbol ".").optional.bind fun dot dot' hdot =>
    (inStep_take .identifier).bind fun t t' h => ?_
  obtain ⟨-, htext, -, -⟩ := Token.unplaced_eq_iff.mp h
  rw [Option.map_id, id, id] at hdot
  rw [hdot, htext]
  exact inStep_pure rfl

theorem inStep_name : InStep Operand.unplaced name name :=
  inStep_place.bind fun _ _ _ => inStep_labelName.bind fun _ _ h =>
    inStep_pure (congrArg (fun label => Operand.mk (.name label) .nowhere) h)

theorem InStep.parenthesized {p : Production OperandForm} (hp : InStep id p p) :
    InStep Operand.unplaced (parenthesized p) (parenthesized p) :=
  inStep_place.bind fun _ _ _ => (inStep_symbol "(").bind fun _ _ _ => hp.bind fun _ _ h =>
    (inStep_symbol ")").bind fun _ _ _ =>
      inStep_pure (congrArg (fun form => Operand.mk form .nowhere) h)

theorem inStep_indirectName : InStep Operand.unplaced indirectName indirectName :=
  .parenthesized (inStep_labelName.bind fun _ _ h =>
    inStep_pure (congrArg OperandForm.indirectName h))

theorem inStep_indirectRegister : InStep Operand.unplaced indirectRegister indirectRegister := by
  refine .parenthesized ((inStep_take .register).bind fun t t' h => ?_)
  obtain ⟨-, -, -, hid⟩ := Token.unplaced_eq_iff.mp h
  rw [hid]
  exact inStep_pure rfl

theorem inStep_indirectImmediate :
    InStep Operand.unplaced indirectImmediate indirectImmediate := by
  refine .parenthesized ((inStep_take .number).bind fun t t' h => ?_)
  obtain ⟨-, -, hvalue, -⟩ := Token.unplaced_eq_iff.mp h
  rw [hvalue]
  exact inStep_pure rfl

theorem inStep_operand : InStep Operand.unplaced operand operand := by
  refine inStep_alternatives ?_
  simp only [List.forall_mem_cons]
  exact ⟨inStep_immediate, inStep_register, inStep_indirectName, inStep_indirectRegister,
    inStep_name, inStep_indirectImmediate, by simp⟩

/-! ## 4. Statements -/

theorem inStep_label : InStep Statement.unplaced label label := by
  refine (inStep_take .identifier).bind fun t t' h => (inStep_symbol ":").bind fun _ _ _ => ?_
  obtain ⟨-, htext, -, -⟩ := Token.unplaced_eq_iff.mp h
  rw [htext]
  exact inStep_pure rfl

theorem inStep_localLabel : InStep Statement.unplaced localLabel localLabel := by
  refine inStep_place.bind fun _ _ _ => (inStep_symbol ".").bind fun _ _ _ =>
    (inStep_take .identifier).bind fun t t' h => (inStep_symbol ":").bind fun _ _ _ => ?_
  obtain ⟨-, htext, -, -⟩ := Token.unplaced_eq_iff.mp h
  rw [htext]
  exact inStep_pure rfl

theorem inStep_nullary (m : Mnemonic) : InStep Statement.unplaced (nullary m) (nullary m) :=
  inStep_place.bind fun _ _ _ => (inStep_keyword [m]).bind fun _ _ hm =>
    inStep_pure (congrArg (fun m => Statement.instruction m [] .nowhere) hm)

theorem inStep_unary (m : Mnemonic) : InStep Statement.unplaced (unary m) (unary m) :=
  inStep_place.bind fun _ _ _ => (inStep_keyword [m]).bind fun _ _ hm =>
    inStep_operand.bind fun _ _ ha =>
      inStep_pure (congrArg₂ (fun m a => Statement.instruction m [a] .nowhere) hm ha)

theorem inStep_binary (ms : List Mnemonic) : InStep Statement.unplaced (binary ms) (binary ms) := by
  refine inStep_place.bind fun _ _ _ => (inStep_keyword ms).bind fun m m' hm =>
    inStep_operand.bind fun a a' ha => (inStep_symbol ",").bind fun _ _ _ =>
      inStep_operand.bind fun b b' hb => inStep_pure ?_
  rw [id, id] at hm
  simp only [Statement.unplaced, List.map_cons, List.map_nil, hm, ha, hb]

theorem inStep_xor : InStep Statement.unplaced xor xor := by
  have hsecond : InStep Operand.unplaced secondOperand secondOperand :=
    (inStep_symbol ",").bind fun _ _ _ => inStep_operand
  refine inStep_place.bind fun _ _ _ => (inStep_keyword [.op .xor]).bind fun _ _ hm =>
    inStep_operand.bind fun _ _ ha => hsecond.optional.bind fun b b' hb => inStep_pure ?_
  rw [id, id] at hm
  have hlist : b.toList.map Operand.unplaced = b'.toList.map Operand.unplaced := by
    rw [← Option.toList_map, hb, Option.toList_map]
  simp only [Statement.unplaced, List.map_cons, hm, ha, hlist]

theorem inStep_dataItems (n : Nat) :
    InStep (List.map Operand.unplaced) (dataItems n) (dataItems n) := by
  induction n with
  | zero => exact inStep_fail
  | succ n ih =>
    refine inStep_dataItem.bind fun item item' hitem =>
      (inStep_symbol ",").optional.bind fun comma comma' hcomma => ?_
    rw [Option.map_id, id, id] at hcomma
    rw [hcomma]
    split
    · exact ih.bind fun rest rest' hrest =>
        inStep_pure (by rw [List.map_cons, List.map_cons, hitem, hrest])
    · exact inStep_pure (congrArg (fun item => [item]) hitem)

theorem inStep_data (n : Nat) : InStep Statement.unplaced (data n) (data n) :=
  inStep_place.bind fun _ _ _ => (inStep_keyword [.db]).bind fun _ _ _ =>
    (inStep_dataItems n).bind fun _ _ h =>
      inStep_pure (congrArg (fun items => Statement.data items .nowhere) h)

theorem InStep.times {body : Production Statement} (hbody : InStep Statement.unplaced body body) :
    InStep Statement.unplaced (times body) (times body) := by
  refine inStep_place.bind fun _ _ _ => (inStep_keyword [.times]).bind fun _ _ _ =>
    (inStep_take .number).bind fun t t' h => ?_
  obtain ⟨-, -, hvalue, -⟩ := Token.unplaced_eq_iff.mp h
  rw [hvalue]
  exact hbody.bind fun _ _ hs =>
    inStep_pure (congrArg (fun s => Statement.times t'.value s .nowhere) hs)

theorem inStep_statement (n : Nat) : InStep Statement.unplaced (statement n) (statement n) := by
  induction n with
  | zero => exact inStep_fail
  | succ n ih =>
    unfold statement
    rw [statementRules_eq]
    refine inStep_alternatives (List.forall_mem_map.mpr fun rule _ => ?_)
    cases rule with
    | label => exact inStep_label
    | localLabel => exact inStep_localLabel
    | move => exact inStep_binary _
    | nullary op => exact inStep_nullary (.op op)
    | unary op => exact inStep_unary (.op op)
    | binary op => exact inStep_binary [.op op]
    | xor => exact inStep_xor
    | data => exact inStep_data n
    | times => exact ih.times
    | _ => exact inStep_fail

end Production

/-! ## 5. Parsers -/

namespace Parser

/-- Two parsers stop at the same index in front of the same token, which is no
end token, or they read the same statements, places aside. -/
def SameReading (all all' : List Token)
    (r r' : Except ParseError (List Statement) × Parser) : Prop :=
  (∃ i t t', all[i]? = some t ∧ all'[i]? = some t' ∧ t.unplaced = t'.unplaced ∧ t.kind ≠ .eof ∧
    r.1 = .error ⟨t⟩ ∧ r'.1 = .error ⟨t'⟩ ∧
    r.2.stream.cursor.index = i ∧ r'.2.stream.cursor.index = i) ∨
  ∃ program program', r.1 = .ok program ∧ r'.1 = .ok program' ∧
    program.map Statement.unplaced = program'.map Statement.unplaced

theorem sameReading_statements {bound n : Nat} {acc acc' : Array Statement} {p p' : Parser}
    (hacc : acc.toList.map Statement.unplaced = acc'.toList.map Statement.unplaced)
    (hs : p.stream.InStep all all' p'.stream) (hm : p.memo.InStep p'.memo) :
    SameReading all all' ((statements bound acc n p).map (·.map Array.toList) id)
      ((statements bound acc' n p').map (·.map Array.toList) id) := by
  induction n generalizing acc acc' p p' with
  | zero => exact .inr ⟨_, _, rfl, rfl, hacc⟩
  | succ n ih =>
    rw [statements, statements, ← hs.kind]
    split
    · exact .inr ⟨_, _, rfl, rfl, hacc⟩
    · rename_i hkind
      obtain ⟨hresult, hmemo⟩ :=
        Production.inStep_statement bound all all' p.stream p'.stream p.memo p'.memo hs hm
      generalize Production.statement bound p.stream p.memo = r at hresult hmemo
      generalize Production.statement bound p'.stream p'.memo = r' at hresult hmemo
      obtain ⟨result, memo⟩ := r
      obtain ⟨result', memo'⟩ := r'
      cases hresult with
      | none =>
        obtain ⟨ht, ht'⟩ := hs.getElem? hkind
        exact .inl ⟨_, _, _, ht, ht', hs.token, hkind, rfl, rfl, rfl, hs.index⟩
      | some h =>
        refine ih ?_ h.2 hmemo
        rw [Array.toList_push, Array.toList_push, List.map_append, List.map_append, hacc]
        exact congrArg _ (congrArg (fun s => [s]) h.1)

/-- Streams of tokens that differ in places only start in step. -/
theorem inStep_ofTokens {tokens tokens' : List Token}
    (h : tokens.map Token.unplaced = tokens'.map Token.unplaced) :
    (TokenStream.ofTokens tokens).InStep (TokenStream.ofTokens tokens).rest
      (TokenStream.ofTokens tokens').rest (TokenStream.ofTokens tokens') := by
  have hlast : tokens.getLast?.map Token.unplaced = tokens'.getLast?.map Token.unplaced := by
    rw [← List.getLast?_map, h, List.getLast?_map]
  unfold TokenStream.ofTokens
  cases hend : tokens.getLast? with
  | none =>
    rw [hend, Option.map_none, eq_comm, Option.map_eq_none_iff] at hlast
    rw [hlast]
    exact ⟨rfl, rfl, rfl, rfl, rfl, rfl⟩
  | some last =>
    rw [hend, Option.map_some, eq_comm, Option.map_eq_some_iff] at hlast
    obtain ⟨last', hend', heq⟩ := hlast
    have hkind : last'.kind = last.kind := (Token.unplaced_eq_iff.mp heq).1
    rw [hend']
    simp only [hkind]
    split
    · rename_i heof
      exact ⟨h, rfl, rfl, rfl, heof, heq.symm⟩
    · refine ⟨?_, rfl, rfl, rfl, rfl, rfl⟩
      simp only [TokenStream.rest, Cursor.ofList, List.map_append, h]
      rfl

/-- All tokens of a stream but the end token come from the list. -/
theorem getElem?_of_ofTokens {tokens : List Token} {i : Nat} {t : Token}
    (h : (TokenStream.ofTokens tokens).rest[i]? = some t) (hkind : t.kind ≠ .eof) :
    tokens[i]? = some t := by
  obtain ⟨heof, hrest | hrest⟩ := ofTokens_spec tokens
  · rwa [hrest] at h
  · rw [hrest] at h
    by_cases hi : i < tokens.length
    · rwa [List.getElem?_append_left hi] at h
    · have hmem : t ∈ [(TokenStream.ofTokens tokens).eof] := by
        rw [List.getElem?_append_right (Nat.le_of_not_lt hi)] at h
        exact List.mem_of_getElem? h
      cases List.mem_singleton.mp hmem
      exact absurd heof hkind

theorem parse_eq (p : Parser) :
    p.parse = (statements (p.stream.rest.length + 1) #[] (p.stream.rest.length + 1) p).map
      (·.map Array.toList) id := by
  simp only [parse, TokenStream.rest, Prod.map, id]

/-- Parsers that start in step read the same. -/
theorem SameReading.of_inStep {p p' : Parser}
    (hs : p.stream.InStep all all' p'.stream) (hm : p.memo.InStep p'.memo) :
    SameReading all all' p.parse p'.parse := by
  have hlen : p.stream.rest.length = p'.stream.rest.length := by
    have hmap := congrArg List.length hs.map_rest
    rwa [List.length_map, List.length_map] at hmap
  rw [parse_eq, parse_eq, ← hlen]
  exact sameReading_statements rfl hs hm

/-- Lists of tokens that differ in places only are read the same. -/
theorem sameReading_parse {tokens tokens' : List Token}
    (h : tokens.map Token.unplaced = tokens'.map Token.unplaced) (remembers : Bool) :
    SameReading tokens tokens' (ofTokens tokens remembers).parse
      (ofTokens tokens' remembers).parse := by
  have hread := @SameReading.of_inStep _ _ (ofTokens tokens remembers)
    (ofTokens tokens' remembers) (inStep_ofTokens h) (Memo.inStep_empty remembers)
  rcases hread with ⟨i, t, t', ht, ht', hsame, hkind, hstop⟩ | hread
  · have hkind' : t'.kind ≠ .eof := (Token.unplaced_eq_iff.mp hsame).1 ▸ hkind
    exact .inl ⟨i, t, t', getElem?_of_ofTokens ht hkind, getElem?_of_ofTokens ht' hkind', hsame,
      hkind, hstop⟩
  · exact .inr hread

end Parser

/-! ## 6. Images -/

/-- Two runs end alike: with the same image, or with errors that differ in
places only, and in both cases with the same labels and layouts. -/
def SameOutcome (r r' : Except ProgramError Image × Run) : Prop :=
  r.1.mapError (ProgramError.relabel .unplacing) =
      r'.1.mapError (ProgramError.relabel .unplacing) ∧
    r.2.declared = r'.2.declared ∧ r.2.layouts = r'.2.layouts

/-- Where statements stand does not matter to a run. -/
theorem sameOutcome_assembleProgram {program program' : List Statement}
    (h : program.map Statement.unplaced = program'.map Statement.unplaced) :
    SameOutcome (assembleProgram program) (assembleProgram program') := by
  have hrun := assembleProgram_relabel .unplacing program
  have hrun' := assembleProgram_relabel .unplacing program'
  rw [Statement.relabel_unplacing] at hrun hrun'
  rw [h, hrun'] at hrun
  obtain ⟨hresult, hend⟩ := Prod.mk.inj hrun
  have hname : Symbol.relabel .unplacing = id := rfl
  have hdeclared := congrArg Run.declared hend
  simp only [Run.relabel, hname, Array.map_id] at hdeclared
  exact ⟨hresult.symm, hdeclared.symm, (congrArg Run.layouts hend).symm⟩

theorem SameOutcome.toOption_eq {r r' : Except ProgramError Image × Run} (h : SameOutcome r r') :
    r.1.toOption = r'.1.toOption := by
  have hresult := h.1
  cases hr : r.1 with
  | ok image =>
    cases hr' : r'.1 with
    | ok image' =>
      rw [hr, hr'] at hresult
      cases hresult
      rfl
    | error e' => rw [hr, hr'] at hresult; cases hresult
  | error e =>
    cases hr' : r'.1 with
    | ok image' => rw [hr, hr'] at hresult; cases hresult
    | error e' => rfl

/-- Where tokens stand decides nothing but the places in messages.  Two lists of
tokens that agree in kind, text, value and id make the parser stop at the same
index, or they are read as the same statements, places aside.  Such statements
have the same image, labels and layouts, or errors that differ in places only:
references without a label have the same names and offsets in the same order.
So texts whose tokens differ in places only have the same image. -/
theorem assemble_of_unplaced_eq {tokens tokens' : List Token}
    (h : tokens.map Token.unplaced = tokens'.map Token.unplaced) :
    (∀ remembers, Parser.SameReading tokens tokens' (Parser.ofTokens tokens remembers).parse
        (Parser.ofTokens tokens' remembers).parse ∧
      ∀ program program', (Parser.ofTokens tokens remembers).parse.1 = .ok program →
        (Parser.ofTokens tokens' remembers).parse.1 = .ok program' →
        SameOutcome (assembleProgram program) (assembleProgram program')) ∧
    ∀ (a : Assembler) (source source' : String), tokenize source = tokens →
      tokenize source' = tokens' →
      (a.assemble source).1.toOption = (a.assemble source').1.toOption ∧
        (a.assemble source).2.symbols = (a.assemble source').2.symbols ∧
        (a.assemble source).2.layouts = (a.assemble source').2.layouts := by
  refine ⟨fun remembers => ⟨Parser.sameReading_parse h remembers, ?_⟩, ?_⟩
  · intro program program' hread hread'
    rcases Parser.sameReading_parse h remembers with ⟨i, t, t', -, -, -, -, herror, -⟩ | hsame
    · rw [hread] at herror
      cases herror
    · obtain ⟨p, p', hp, hp', heq⟩ := hsame
      cases hread.symm.trans hp
      cases hread'.symm.trans hp'
      exact sameOutcome_assembleProgram heq
  · rintro a source source' rfl rfl
    unfold Assembler.assemble parse
    rcases Parser.sameReading_parse h true with
      ⟨i, t, t', -, -, -, -, herror, herror', -⟩ | ⟨program, program', hread, hread', heq⟩
    · rw [herror, herror']
      exact ⟨rfl, rfl, rfl⟩
    · rw [hread, hread']
      have himage : ∀ program, (a.assembleProgram program).1.toOption =
          (assembleProgram program).1.toOption := by
        intro program
        rw [Assembler.assembleProgram_eq_first]
        cases (assembleProgram program).1 <;> rfl
      have hlast : ∀ program, (a.assembleProgram program).2.last =
          (assembleProgram program).2.following a.last.events := by
        intro program
        rw [Assembler.assembleProgram_eq_first]
      have houtcome := sameOutcome_assembleProgram heq
      refine ⟨?_, ?_, ?_⟩
      · simp only [himage, houtcome.toOption_eq]
      · simp only [Assembler.symbols, hlast]
        exact congrArg Array.toList houtcome.2.1
      · simp only [Assembler.layouts, hlast]
        exact congrArg Array.toList houtcome.2.2

/-- A label and a repeated jump back to it. -/
def jumpsBack : String := "a: ; start\n\ttimes 2\njmp a"

/-- The same tokens with as little between them as there can be. -/
def jumpsBackTight : String := "a:times 2jmp a"

theorem assemble_of_unplaced_eq_jumpsBack :
    (tokenize jumpsBack).map Token.unplaced = (tokenize jumpsBackTight).map Token.unplaced ∧
      ((Assembler.mk {}).assemble jumpsBack).1.toOption =
        ((Assembler.mk {}).assemble jumpsBackTight).1.toOption := by
  have htokens : (tokenize jumpsBack).map Token.unplaced =
      (tokenize jumpsBackTight).map Token.unplaced := by decide +kernel
  exact ⟨htokens, ((assemble_of_unplaced_eq htokens).2 _ _ _ rfl rfl).1⟩

end RegAsm
