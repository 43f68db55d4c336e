/-
RegAsm.Proofs.Undefined — a name that stands for nothing is reported, and
reported once.

A mention of a label has a target if its name stands for a label of the
program: a global name for a global label anywhere, a local one for a label of
its own region.  A run finds the mentions without a target in another order
than they are written in: a local name is given up where its region ends, and
a global name at the end of the program (`givenUpFrom`).  In between the
references that wait are patched and sorted again at every global label.
`willReport` is the list that a run will have reported at its end; no step of
a run changes it (`willReport_emit`), so the run reports the mentions without
a target (`undefined_reported`), each of them once.

1. Mentions of labels.
2. Targets.
3. The order of the reports.
4. What a run will report.
5. Gaps.
6. Programs.
-/
import Mathlib
import RegAsm.Proofs.Decoding
import RegAsm.Proofs.Reading

namespace RegAsm

open Machine
open Source (Position)

/-! ## 1. Mentions -/

/-- The label that an operand mentions. -/
def OperandForm.label? : OperandForm → Option String
  | .name label | .indirectName label => some label
  | _ => none

/-- The references of some operands, each with the width of its field.  The
first field starts at an address. -/
def operandReferences (address : Nat) : List (Operand × Nat) → List Reference
  | [] => []
  | (o, width) :: rest =>
    (o.form.label?.map fun label => ⟨label, UInt32.ofNat address, o.pos⟩).toList ++
      operandReferences (address + width) rest

/-- The references of a statement at an address. -/
def Statement.references (address : Nat) : Statement → List Reference
  | .instruction m operands _ =>
    match Encoding.of m operands with
    | .ok e => operandReferences (address + e.head.length) (operands.zip e.widths)
    | .error _ => []
  | _ => []

/-- A reference with the labels before and behind it. -/
structure Mention where
  before : List Declaration
  after : List Declaration
  ref : Reference

/-- The mentions in some statements.  The first one starts at an address and
has some labels before it. -/
def mentionsFrom (before : List Declaration) (address : Nat) : List Statement → List Mention
  | [] => []
  | s :: rest =>
    let here := s.declarations address
    let after := declarationsFrom (address + s.size) rest
    (s.references address).map (⟨before, here ++ after, ·⟩) ++
      mentionsFrom (before ++ here) (address + s.size) rest

/-- The mentions in a program, repetitions written out. -/
def mentions (program : List Statement) : List Mention := mentionsFrom [] 0 (unroll program)

/-- The reference of a field at an address. -/
def Field.references (address : Nat) : Field → List Reference
  | .address label pos => [⟨label, UInt32.ofNat address, pos⟩]
  | _ => []

/-- The references of some fields, the first of which starts at an address. -/
def fieldReferences (address : Nat) : List Field → List Reference
  | [] => []
  | f :: rest => f.references address ++ fieldReferences (address + f.width) rest

theorem references_fieldOf {o : Operand} {c : OperandClass} (h : o.form.class? = some c)
    (size : Option Size) (address : Nat) :
    (Encoding.fieldOf size o).references address =
      (o.form.label?.map fun label =>
        (⟨label, UInt32.ofNat address, o.pos⟩ : Reference)).toList := by
  obtain ⟨form, pos⟩ := o
  cases form with
  | text contents => cases h
  | other tag => cases h
  | _ => rfl

theorem operandReferences_cons {o : Operand} {c : OperandClass} (h : o.form.class? = some c)
    (size : Option Size) {os : List Operand} {fields : List Field} (address : Nat)
    (hrest : ∀ address, operandReferences address (os.zip (fields.map Field.width)) =
      fieldReferences address fields) :
    operandReferences address
        ((o :: os).zip ((Encoding.fieldOf size o :: fields).map Field.width)) =
      fieldReferences address (Encoding.fieldOf size o :: fields) := by
  rw [List.map_cons, List.zip_cons_cons, operandReferences, fieldReferences, hrest,
    references_fieldOf h]

/-- The references of an instruction are those of its fields. -/
theorem operandReferences_of_ok {m : Mnemonic} {operands : List Operand} {e : Encoding}
    (h : Encoding.of m operands = .ok e) (address : Nat) :
    operandReferences address (operands.zip e.widths) = fieldReferences address e.fields := by
  obtain ⟨-, ⟨rfl, -, -, hfields⟩ | ⟨mode, -, hmode, -, -, hfields⟩⟩ := Encoding.of_eq_ok h
  · rw [hfields]
    rfl
  · have hsources : ∀ {os cs}, List.Forall₂ (fun (o : Operand) c => o.form.class? = some c) os cs →
        ∀ address, operandReferences address
            (os.zip ((os.map (Encoding.fieldOf e.size)).map Field.width)) =
          fieldReferences address (os.map (Encoding.fieldOf e.size)) := by
      intro os cs hclass
      induction hclass with
      | nil => exact fun _ => rfl
      | cons hc _ ih => exact fun address => operandReferences_cons hc e.size address ih
    have hclass := Encoding.modeOf_eq_ok hmode
    rw [Encoding.widths, hfields]
    generalize mode.classes = cs at hclass
    cases hclass with
    | nil => rfl
    | cons hc hcs => exact operandReferences_cons hc none address (hsources hcs)

/-! ## 2. Targets -/

/-- The number of global labels among some labels. -/
def globalCount (ds : List Declaration) : Nat := ds.countP (·.isGlobal)

namespace Mention

/-- The labels of the region that a mention stands in. -/
def region (m : Mention) : List Declaration := openRegion m.before ++ restOfRegion m.after

/-- Whether a label stands behind the name: for a global name a global label
anywhere, for a local one a label of the same region. -/
def HasTarget (m : Mention) : Prop :=
  if isLocalName m.ref.label then ∃ d ∈ m.region, d.name = m.ref.label
  else ∃ d ∈ m.before ++ m.after, d.isGlobal = true ∧ d.name = m.ref.label

instance : DecidablePred HasTarget := fun m =>
  inferInstanceAs (Decidable (if isLocalName m.ref.label then ∃ d ∈ m.region, d.name = m.ref.label
    else ∃ d ∈ m.before ++ m.after, d.isGlobal = true ∧ d.name = m.ref.label))

/-- The number of the region that a mention stands in: how many global labels
are in front of it. -/
def number (m : Mention) : Nat := globalCount m.before

end Mention

theorem lastNamed?_eq_none_iff (name : String) (ds : List Declaration) :
    lastNamed? name ds = none ↔ ¬ ∃ d ∈ ds, d.name = name := by
  simp [lastNamed?]

theorem hasTarget_iff_regionRule (m : Mention) :
    m.HasTarget ↔ regionRule m.before m.after m.ref.label ≠ none := by
  unfold Mention.HasTarget regionRule
  split
  · rw [Ne, Option.or_eq_none_iff, lastNamed?_eq_none_iff, lastNamed?_eq_none_iff, Mention.region]
    simp only [List.mem_append, or_and_right, exists_or, ← not_or, not_not]
  · rw [Ne, Run.globalNamed?_eq_none_iff, not_not]
    simp only [Run.globalNames, List.mem_map, List.mem_filter, and_assoc]

theorem labels_of_mem_mentionsFrom {before : List Declaration} {address : Nat}
    {ss : List Statement} {m : Mention} (h : m ∈ mentionsFrom before address ss) :
    m.before ++ m.after = before ++ declarationsFrom address ss ∧ before <+: m.before := by
  induction ss generalizing before address with
  | nil => cases h
  | cons s rest ih =>
    rw [declarationsFrom]
    rcases List.mem_append.mp h with h | h
    · obtain ⟨ref, -, rfl⟩ := List.mem_map.mp h
      exact ⟨rfl, List.prefix_rfl⟩
    · obtain ⟨hlabels, hbefore⟩ := ih h
      rw [List.append_assoc] at hlabels
      exact ⟨hlabels, (List.prefix_append before _).trans hbefore⟩

/-- What the deferred rule knows nothing of, has no target. -/
theorem hasTarget_iff_deferredRule {before : List Declaration} {address : Nat}
    {ss : List Statement} {m : Mention} (h : m ∈ mentionsFrom before address ss)
    (hnamed : WellNamed (before ++ declarationsFrom address ss)) :
    m.HasTarget ↔ deferredRule m.before m.after m.ref.label ≠ none := by
  rw [← (labels_of_mem_mentionsFrom h).1] at hnamed
  rw [hasTarget_iff_regionRule, deferredRule_eq_regionRule hnamed]

/-! ## 3. The order of the reports -/

/-- Whether a reference, with the number of its region, is a local one of a
region. -/
def isLocalOf (region : Nat) (x : Nat × Reference) : Bool :=
  isLocalName x.2.label && x.1 == region

/-- The local references of a region. -/
def localsOf (refs : List (Nat × Reference)) (region : Nat) : List Reference :=
  (refs.filter (isLocalOf region)).map (·.2)

/-- The references that are not given up before the end: the global ones, and
the local ones of the last region. -/
def leftOver (refs : List (Nat × Reference)) (last : Nat) : List Reference :=
  (refs.filter fun x => !isLocalName x.2.label || x.1 == last).map (·.2)

/-- References in the order in which they are given up: for each region but the
last its local ones, and then all others. -/
def givenUpFrom (first last : Nat) (refs : List (Nat × Reference)) : List Reference :=
  (List.range' first (last - first)).flatMap (localsOf refs) ++ leftOver refs last

/-- The region of a mention and its reference. -/
def Mention.numbered (m : Mention) : Nat × Reference := (m.number, m.ref)

/-- The references of a program that have no target, in the order in which they
are given up. -/
def undefinedReferences (program : List Statement) : List Reference :=
  givenUpFrom 0 (globalCount (declarationsFrom 0 (unroll program)))
    (((mentions program).filter (¬ ·.HasTarget)).map Mention.numbered)

theorem localsOf_append (xs ys : List (Nat × Reference)) (region : Nat) :
    localsOf (xs ++ ys) region = localsOf xs region ++ localsOf ys region := by
  simp [localsOf]

theorem leftOver_append (xs ys : List (Nat × Reference)) (last : Nat) :
    leftOver (xs ++ ys) last = leftOver xs last ++ leftOver ys last := by
  simp [leftOver]

/-- In the last region all references are left over. -/
theorem givenUpFrom_last {last : Nat} {refs : List (Nat × Reference)}
    (h : ∀ x ∈ refs, isLocalName x.2.label = true → x.1 = last) :
    givenUpFrom last last refs = refs.map (·.2) := by
  have hall : (refs.filter fun x => !isLocalName x.2.label || x.1 == last) = refs := by
    rw [List.filter_eq_self]
    intro x hx
    have hlast := h x hx
    cases hlocal : isLocalName x.2.label <;> simp_all
  rw [givenUpFrom, Nat.sub_self, List.range'_zero, List.flatMap_nil, List.nil_append, leftOver,
    hall]

/-- At the end of a region its local references are given up. -/
theorem givenUpFrom_of_lt {first last : Nat} (h : first < last) (refs : List (Nat × Reference)) :
    givenUpFrom first last refs = localsOf refs first ++ givenUpFrom (first + 1) last refs := by
  have hrange : last - first = last - (first + 1) + 1 := by omega
  rw [givenUpFrom, givenUpFrom, hrange, List.range'_succ, List.flatMap_cons, List.append_assoc]

/-- References are given up in the same order if those of each region are. -/
theorem givenUpFrom_congr {first last : Nat} {xs ys : List (Nat × Reference)}
    (hlocals : ∀ region, first ≤ region → localsOf xs region = localsOf ys region)
    (hleft : leftOver xs last = leftOver ys last) :
    givenUpFrom first last xs = givenUpFrom first last ys := by
  rw [givenUpFrom, givenUpFrom, hleft, List.flatMap_def, List.flatMap_def,
    List.map_congr_left fun region hregion => hlocals region (List.mem_range'_1.mp hregion).1]

/-- The local references of a region that is past play no part. -/
theorem givenUpFrom_past {region last : Nat} (hlt : region < last)
    (refs : List (Nat × Reference)) :
    givenUpFrom (region + 1) last refs =
      givenUpFrom (region + 1) last (refs.filter (!isLocalOf region ·)) := by
  refine givenUpFrom_congr (fun later hlater => ?_) ?_
  · simp only [localsOf, List.filter_filter]
    congr 1
    refine List.filter_congr fun x _ => ?_
    by_cases hx : x.1 = later
    · have hne : ¬ later = region := by omega
      simp [isLocalOf, hx, hne]
    · simp [isLocalOf, hx]
  · simp only [leftOver, List.filter_filter]
    congr 1
    refine List.filter_congr fun x _ => ?_
    by_cases hx : x.1 = last
    · have hne : ¬ last = region := by omega
      simp [isLocalOf, hx, hne]
    · cases hlocal : isLocalName x.2.label <;> simp [isLocalOf, hlocal, hx]

/-- Every reference is given up once. -/
theorem perm_givenUpFrom {first last : Nat} (hle : first ≤ last) {refs : List (Nat × Reference)}
    (h : ∀ x ∈ refs, isLocalName x.2.label = true → first ≤ x.1 ∧ x.1 ≤ last) :
    (givenUpFrom first last refs).Perm (refs.map (·.2)) := by
  induction hn : last - first generalizing first refs with
  | zero =>
    have hsame : first = last := by omega
    subst hsame
    rw [givenUpFrom_last]
    intro x hx hlocal
    have hbounds := h x hx hlocal
    omega
  | succ n ih =>
    have hlater : ∀ x ∈ refs.filter (!isLocalOf first ·), isLocalName x.2.label = true →
        first + 1 ≤ x.1 ∧ x.1 ≤ last := by
      intro x hx hlocal
      obtain ⟨hmem, hnot⟩ := List.mem_filter.mp hx
      have hbounds := h x hmem hlocal
      simp only [isLocalOf, hlocal, Bool.true_and, Bool.not_eq_true', beq_eq_false_iff_ne] at hnot
      omega
    have hrest := ih (by omega) hlater (by omega)
    rw [givenUpFrom_of_lt (by omega), givenUpFrom_past (by omega), localsOf]
    refine (List.Perm.append_left _ hrest).trans ?_
    rw [← List.map_append]
    exact (List.filter_append_perm _ refs).map _

/-! ## 4. Runs -/

/-- References that wait in a region. -/
def waitingIn (region : Nat) (refs : List Reference) : List (Nat × Reference) :=
  refs.map (region, ·)

theorem localsOf_waitingIn (region k : Nat) (refs : List Reference) :
    localsOf (waitingIn region refs) k =
      refs.filter fun ref => isLocalName ref.label && region == k := by
  simp [localsOf, waitingIn, List.filter_map, isLocalOf, Function.comp_def]

theorem leftOver_waitingIn (region last : Nat) (refs : List Reference) :
    leftOver (waitingIn region refs) last =
      refs.filter fun ref => !isLocalName ref.label || region == last := by
  simp [leftOver, waitingIn, List.filter_map, Function.comp_def]

/-- Behind the end of a region only its global references wait. -/
theorem givenUpFrom_reopened {region last : Nat} (hlt : region < last) (refs : List Reference)
    (later : List (Nat × Reference)) :
    givenUpFrom (region + 1) last (waitingIn region refs ++ later) =
      givenUpFrom (region + 1) last
        (waitingIn (region + 1) (refs.filter (!isLocalName ·.label)) ++ later) := by
  refine givenUpFrom_congr (fun k hk => ?_) ?_
  · have hne : ¬ region = k := by omega
    rw [localsOf_append, localsOf_append, localsOf_waitingIn, localsOf_waitingIn,
      List.filter_filter]
    congr 1
    refine List.filter_congr fun ref _ => ?_
    cases isLocalName ref.label <;> simp [hne]
  · have hne : ¬ region = last := by omega
    rw [leftOver_append, leftOver_append, leftOver_waitingIn, leftOver_waitingIn,
      List.filter_filter]
    congr 1
    refine List.filter_congr fun ref _ => ?_
    cases isLocalName ref.label <;> simp [hne]

namespace Run

/-- The references that a run will have reported at its end: those that it has
given up, and those that wait or are still to come and stand for nothing. -/
def willReport (r : Run) (before after : List Declaration) (later : List (Nat × Reference)) :
    List Reference :=
  r.undefined.toList ++
    givenUpFrom (globalCount before) (globalCount (before ++ after))
      (waitingIn (globalCount before)
        (r.pending.toList.filter fun ref => (settled? ref.label before after).isNone) ++ later)

theorem writeField_waiting (r : Run) (f : Field) :
    (r.writeField f).pending.toList = r.pending.toList ++
        (f.references r.code.size).filter (fun ref => (r.table.find? ref.label).isNone) ∧
      (r.writeField f).undefined = r.undefined := by
  cases f with
  | address label pos =>
    rw [writeField, refer, Field.references]
    cases hfind : r.table.find? label with
    | some a => simp [hfind, append]
    | none => simp [hfind, offset]
  | _ => simp [writeField, append, Field.references]

theorem writeFields_waiting (fields : List Field) (r : Run) :
    (fields.foldl writeField r).pending.toList = r.pending.toList ++
        (fieldReferences r.code.size fields).filter
          (fun ref => (r.table.find? ref.label).isNone) ∧
      (fields.foldl writeField r).undefined = r.undefined := by
  induction fields generalizing r with
  | nil => simp [fieldReferences]
  | cons f rest ih =>
    obtain ⟨hpending, hundefined⟩ := r.writeField_waiting f
    obtain ⟨hpending', hundefined'⟩ := ih (r.writeField f)
    rw [List.foldl_cons, hpending', hundefined', hpending, (r.sameBooks_writeField f).table,
      size_writeField, fieldReferences, List.filter_append, List.append_assoc]
    exact ⟨rfl, hundefined⟩

section Step

variable {r r' : Run} {before : List Declaration} {address : Nat}

/-- What is visible to a run is visible behind the labels it has passed. -/
theorem Follows.isNone_find? (hf : r.Follows before address) (name : String) :
    (r.table.find? name).isNone = (visible? before name).isNone := by
  rw [hf.find?, Option.isNone_map]

/-- At a global label the references that wait and are not visible are given up
if they are local, and wait on if not. -/
theorem emit_label_waiting {name : String} {pos : Position} (hf : r.Follows before address)
    (h : emit (.label name pos) r = .ok r') :
    r'.undefined.toList = r.undefined.toList ++ r.pending.toList.filter (fun ref =>
        isLocalName ref.label && (visible? before ref.label).isNone) ∧
      r'.pending.toList = r.pending.toList.filter fun ref =>
        !isLocalName ref.label && (visible? before ref.label).isNone := by
  obtain ⟨fault, events, heq⟩ := emit_label_eq hf name pos
  obtain ⟨events', hpatch⟩ := r.patch_eq
  rw [heq] at h
  cases hn : globalNamed? name before with
  | some a => simp [hn] at h
  | none =>
    simp only [hn, Except.ok.injEq] at h
    subst h
    simp only [hpatch, closeRegion, Array.toList_append, Array.toList_filter, List.filter_filter,
      hf.isNone_find?, and_self]

theorem willReport_label {name : String} {pos : Position} (hf : r.Follows before address)
    (h : emit (.label name pos) r = .ok r') (after : List Declaration)
    {later : List (Nat × Reference)} (hlater : ∀ x ∈ later, globalCount before < x.1) :
    r'.willReport (before ++ [⟨true, name, address⟩]) after later =
      r.willReport before (⟨true, name, address⟩ :: after) later := by
  obtain ⟨hundefined, hpending⟩ := emit_label_waiting hf h
  have hcount : globalCount (before ++ [⟨true, name, address⟩]) = globalCount before + 1 := by
    simp [globalCount]
  have hlabels : before ++ [⟨true, name, address⟩] ++ after =
      before ++ ⟨true, name, address⟩ :: after := by
    simp
  have hlt : globalCount before < globalCount (before ++ ⟨true, name, address⟩ :: after) := by
    simp [globalCount]
  have hnow : localsOf later (globalCount before) = [] := by
    simp only [localsOf, List.map_eq_nil_iff, List.filter_eq_nil_iff, isLocalOf]
    intro x hx
    simp [Nat.ne_of_gt (hlater x hx)]
  rw [willReport, willReport, hcount, hlabels, givenUpFrom_of_lt hlt, givenUpFrom_reopened hlt,
    localsOf_append, hnow, localsOf_waitingIn, hundefined, hpending, List.append_nil,
    List.append_assoc]
  congr 1
  -- A local name that waits is lost at the label, a global one if nothing turns up behind it.
  congr 1
  · rw [List.filter_filter]
    refine List.filter_congr fun ref _ => ?_
    rw [settled?, if_pos rfl, Option.isNone_or]
    cases isLocalName ref.label <;> simp
  · congr 3
    rw [List.filter_filter, List.filter_filter]
    refine List.filter_congr fun ref _ => ?_
    rw [settled?, if_pos rfl, Option.isNone_or]
    cases isLocalName ref.label <;> simp [Bool.and_comm]

theorem willReport_localLabel {name : String} {pos : Position} (hf : r.Follows before address)
    (h : emit (.localLabel name pos) r = .ok r') (after : List Declaration)
    (later : List (Nat × Reference)) :
    r'.willReport (before ++ [⟨false, name, address⟩]) after later =
      r.willReport before (⟨false, name, address⟩ :: after) later := by
  obtain ⟨events, heq⟩ := emit_localLabel_eq hf name pos
  rw [heq, Except.ok.injEq] at h
  subst h
  simp [willReport, settled?, globalCount]

/-- The references of an instruction wait if they are not visible. -/
theorem emit_instruction_waiting {m : Mnemonic} {operands : List Operand} {pos : Position}
    (hf : r.Follows before address) (h : emit (.instruction m operands pos) r = .ok r') :
    r'.undefined = r.undefined ∧
      r'.pending.toList = r.pending.toList ++
        ((Statement.instruction m operands pos).references address).filter
          (fun ref => (visible? before ref.label).isNone) := by
  obtain ⟨e, events, he, rfl⟩ := exists_encoding_of_emit h
  obtain ⟨hpending, hundefined⟩ := writeFields_waiting e.fields (r.append e.head)
  have hsize : (r.append e.head).code.size = address + e.head.length := by
    rw [append, size_appendList, hf.size]
  have htable : (r.append e.head).table = r.table := rfl
  rw [hsize, htable] at hpending
  rw [hpending, hundefined]
  simp only [Statement.references, he, operandReferences_of_ok he, hf.isNone_find?]
  exact ⟨rfl, rfl⟩

theorem willReport_instruction {m : Mnemonic} {operands : List Operand} {pos : Position}
    (hf : r.Follows before address) (h : emit (.instruction m operands pos) r = .ok r')
    (after : List Declaration) (later : List (Nat × Reference)) :
    r'.willReport before after later =
      r.willReport before after
        (waitingIn (globalCount before)
          (((Statement.instruction m operands pos).references address).filter fun ref =>
            (deferredRule before after ref.label).isNone) ++ later) := by
  obtain ⟨hundefined, hpending⟩ := emit_instruction_waiting hf h
  have hlost : ∀ ref : Reference, ((settled? ref.label before after).isNone &&
      (visible? before ref.label).isNone) = (deferredRule before after ref.label).isNone := by
    intro ref
    rw [deferredRule, Option.isNone_or, Bool.and_comm]
  rw [willReport, willReport, hundefined, hpending, List.filter_append, List.filter_filter,
    waitingIn, List.map_append, List.append_assoc]
  simp only [hlost, waitingIn]

/-- No statement changes what will be reported. -/
theorem willReport_emit {s : Statement} (hs : s.isSimple = true) (hf : r.Follows before address)
    (h : emit s r = .ok r') (after : List Declaration) {later : List (Nat × Reference)}
    (hlater : ∀ x ∈ later, globalCount (before ++ s.declarations address) ≤ x.1) :
    r'.willReport (before ++ s.declarations address) after later =
      r.willReport before (s.declarations address ++ after)
        (waitingIn (globalCount before) ((s.references address).filter fun ref =>
          (deferredRule before (s.declarations address ++ after) ref.label).isNone) ++ later) := by
  cases s with
  | label name pos =>
    refine willReport_label hf h after fun x hx => ?_
    have hcount := hlater x hx
    simp only [Statement.declarations, globalCount, List.countP_append, List.countP_singleton,
      if_true] at hcount
    exact hcount
  | localLabel name pos => exact willReport_localLabel hf h after later
  | instruction m operands pos =>
    simp only [Statement.declarations, List.append_nil]
    exact willReport_instruction hf h after later
  | data items pos =>
    obtain ⟨bytes, -, rfl⟩ := emit_data_eq_ok_iff.mp h
    simp only [Statement.declarations, List.append_nil]
    rfl
  | times count body pos => cases hs
  | bareTimes count pos => cases h
  | other tag m operands pos => cases h

end Step

end Run

/-- The mentions in some statements that the deferred rule knows nothing of. -/
def lostFrom (before : List Declaration) (address : Nat) (ss : List Statement) :
    List (Nat × Reference) :=
  ((mentionsFrom before address ss).filter fun m =>
    (deferredRule m.before m.after m.ref.label).isNone).map Mention.numbered

theorem lostFrom_cons (before : List Declaration) (address : Nat) (s : Statement)
    (rest : List Statement) :
    lostFrom before address (s :: rest) =
      waitingIn (globalCount before) ((s.references address).filter fun ref =>
        (deferredRule before
          (s.declarations address ++ declarationsFrom (address + s.size) rest) ref.label).isNone) ++
        lostFrom (before ++ s.declarations address) (address + s.size) rest := by
  simp only [lostFrom, mentionsFrom, List.filter_append, List.map_append, List.filter_map,
    List.map_map, waitingIn, Function.comp_def]
  rfl

/-- Mentions stand behind the labels that are before them. -/
theorem le_of_mem_lostFrom {before : List Declaration} {address : Nat} {ss : List Statement}
    {x : Nat × Reference} (h : x ∈ lostFrom before address ss) :
    globalCount before ≤ x.1 ∧ x.1 ≤ globalCount (before ++ declarationsFrom address ss) := by
  obtain ⟨m, hm, rfl⟩ := List.mem_map.mp h
  obtain ⟨hlabels, hbefore⟩ := labels_of_mem_mentionsFrom (List.mem_filter.mp hm).1
  rw [← hlabels]
  exact ⟨hbefore.sublist.countP_le, (List.sublist_append_left _ _).countP_le⟩

namespace Run

/-- A run reports what it was going to report when it started. -/
theorem undefined_finish {ss : List Statement} {r r' : Run} {before : List Declaration}
    {address : Nat} (hs : ∀ s ∈ ss, s.isSimple = true) (hf : r.Follows before address)
    (hsize : address + sizeSum ss < 2 ^ 32) (h : emitAll ss r = .ok r') :
    r'.finish.undefined.toList =
      r.willReport before (declarationsFrom address ss) (lostFrom before address ss) := by
  induction ss generalizing r before address with
  | nil =>
    simp only [emitAll, Except.ok.injEq] at h
    subst h
    obtain ⟨events, hpatch⟩ := r.patch_eq
    rw [finish, hpatch, willReport, declarationsFrom, List.append_nil, givenUpFrom_last]
    · simp [lostFrom, mentionsFrom, waitingIn, settled?, hf.isNone_find?, Function.comp_def]
    · simp +contextual [lostFrom, mentionsFrom, waitingIn]
  | cons s rest ih =>
    rw [sizeSum_cons] at hsize
    obtain ⟨r₁, hemit, h⟩ := emitAll_cons_eq_ok_iff.mp h
    have hsimple := hs s List.mem_cons_self
    have hstep := emit_spec hsimple hf (by omega) hemit
    have hlater : ∀ x ∈ lostFrom (before ++ s.declarations address) (address + s.size) rest,
        globalCount (before ++ s.declarations address) ≤ x.1 :=
      fun x hx => (le_of_mem_lostFrom hx).1
    rw [ih (fun t ht => hs t (List.mem_cons_of_mem s ht)) hstep.follows (by omega) h,
      willReport_emit hsimple hf hemit _ hlater, lostFrom_cons, declarationsFrom]

end Run

/-! ## 5. Gaps -/

/-- Without gaps any two limits will do. -/
theorem apart_nil (limit address : Nat) :
    Apart [] limit ∧ ∀ ref ∈ ([] : List Reference), address ≤ ref.offset.toNat :=
  ⟨⟨List.Pairwise.nil, List.forall_mem_nil _⟩, List.forall_mem_nil _⟩

/-- Gaps behind a limit can follow those below it. -/
theorem Apart.append {xs ys : List Reference} {limit limit' : Nat} (hx : Apart xs limit)
    (hy : Apart ys limit') (hle : limit ≤ limit') (hbehind : ∀ ref ∈ ys, limit ≤ ref.offset.toNat) :
    Apart (xs ++ ys) limit' := by
  refine ⟨List.pairwise_append.mpr ⟨hx.ordered, hy.ordered, fun a ha b hb => ?_⟩, fun a ha => ?_⟩
  · exact Nat.le_trans (hx.below a ha) (hbehind b hb)
  · rcases List.mem_append.mp ha with ha | ha
    · exact Nat.le_trans (hx.below a ha) hle
    · exact hy.below a ha

theorem apart_fieldReferences (fields : List Field) {address : Nat}
    (hsize : address + (fields.map Field.width).sum < 2 ^ 32) :
    Apart (fieldReferences address fields) (address + (fields.map Field.width).sum) ∧
      ∀ ref ∈ fieldReferences address fields, address ≤ ref.offset.toNat := by
  induction fields generalizing address with
  | nil => exact apart_nil _ _
  | cons f rest ih =>
    rw [List.map_cons, List.sum_cons] at hsize ⊢
    obtain ⟨hrest, hbehind⟩ := ih (Nat.add_assoc address _ _ ▸ hsize)
    have hfirst : Apart (f.references address) (address + f.width) ∧
        ∀ ref ∈ f.references address, address ≤ ref.offset.toNat := by
      cases f with
      | address label pos =>
        have hoffset : (UInt32.ofNat address).toNat = address :=
          UInt32.toNat_ofNat_of_lt' (by simp only [UInt32.size]; omega)
        refine ⟨⟨List.pairwise_singleton _ _, ?_⟩, ?_⟩ <;>
          simp [Field.references, Field.width, hoffset]
      | _ => exact apart_nil _ _
    rw [← Nat.add_assoc, fieldReferences]
    refine ⟨hfirst.1.append hrest (by omega) hbehind, fun ref href => ?_⟩
    rcases List.mem_append.mp href with href | href
    · exact hfirst.2 ref href
    · exact Nat.le_trans (Nat.le_add_right _ _) (hbehind ref href)

theorem apart_references (s : Statement) {address : Nat} (hsize : address + s.size < 2 ^ 32) :
    Apart (s.references address) (address + s.size) ∧
      ∀ ref ∈ s.references address, address ≤ ref.offset.toNat := by
  cases s with
  | instruction m operands pos =>
    simp only [Statement.references, Statement.size] at hsize ⊢
    cases he : Encoding.of m operands with
    | error f => exact apart_nil _ _
    | ok e =>
      simp only [he, Encoding.length_eq, Encoding.widths, ← Nat.add_assoc] at hsize ⊢
      rw [← Encoding.widths, operandReferences_of_ok he, Encoding.widths]
      obtain ⟨hapart, hbehind⟩ := apart_fieldReferences e.fields hsize
      exact ⟨hapart, fun ref href => Nat.le_trans (Nat.le_add_right _ _) (hbehind ref href)⟩
  | _ => exact apart_nil _ _

/-- The gaps of all mentions lie one behind the other. -/
theorem apart_mentionsFrom (before : List Declaration) {address : Nat} {ss : List Statement}
    (hsize : address + sizeSum ss < 2 ^ 32) :
    Apart ((mentionsFrom before address ss).map (·.ref)) (address + sizeSum ss) ∧
      ∀ ref ∈ (mentionsFrom before address ss).map (·.ref), address ≤ ref.offset.toNat := by
  induction ss generalizing before address with
  | nil => exact apart_nil _ _
  | cons s rest ih =>
    rw [sizeSum_cons, ← Nat.add_assoc] at hsize ⊢
    obtain ⟨hfirst, hhere⟩ := apart_references s (by omega : address + s.size < 2 ^ 32)
    obtain ⟨hrest, hbehind⟩ := ih (before ++ s.declarations address) hsize
    have hrefs : (mentionsFrom before address (s :: rest)).map (·.ref) =
        s.references address ++
          (mentionsFrom (before ++ s.declarations address) (address + s.size) rest).map
            (·.ref) := by
      simp [mentionsFrom, Function.comp_def]
    rw [hrefs]
    refine ⟨hfirst.append hrest (by omega) hbehind, fun ref href => ?_⟩
    rcases List.mem_append.mp href with href | href
    · exact hhere ref href
    · exact Nat.le_trans (Nat.le_add_right _ _) (hbehind ref href)

/-! ## 6. Programs -/

/-- A program that can be placed has no image exactly if a mention is lost, and
then all that are lost are reported. -/
theorem assembleProgram_eq_error_iff {program : List Statement}
    (henc : ∀ s ∈ unroll program, s.isEncodable = true)
    (hnodup : (Run.globalNames (declarationsFrom 0 (unroll program))).Nodup)
    (hsize : sizeSum (unroll program) < 2 ^ 32) {reports : List Reference}
    (hreports : reports = givenUpFrom 0 (globalCount (declarationsFrom 0 (unroll program)))
      (lostFrom [] 0 (unroll program))) (e : ProgramError) :
    (assembleProgram program).1 = .error e ↔ reports ≠ [] ∧ e = .undefined reports := by
  have hsimple : ∀ s ∈ unroll program, s.isSimple = true := fun s => isSimple_of_mem_unroll
  have hbound : 0 + sizeSum (unroll program) < 2 ^ 32 := by omega
  obtain ⟨r, hemit⟩ := (Run.emitAll_isOk_iff hsimple Run.follows_start hbound
    List.nodup_nil).mpr ⟨henc, hnodup⟩
  have hundefined : r.finish.undefined.toList = reports :=
    (Run.undefined_finish hsimple Run.follows_start hbound hemit).trans hreports.symm
  rw [Run.emitAll_unroll] at hemit
  rw [assembleProgram_of_emitAll hemit, ← Array.isEmpty_toList, hundefined]
  cases reports with
  | nil => simp
  | cons ref rest => simp [eq_comm]

theorem Assembler.assembleProgram_fst_eq_error_iff (a : Assembler) (program : List Statement)
    (e : AssemblyError) :
    (a.assembleProgram program).1 = .error e ↔
      ∃ e', (RegAsm.assembleProgram program).1 = .error e' ∧ e = .program e' := by
  have hresult : (a.assembleProgram program).1 =
      (RegAsm.assembleProgram program).1.mapError .program :=
    congrArg Prod.fst (a.assembleProgram_eq_first program)
  rw [hresult]
  cases (RegAsm.assembleProgram program).1 <;> simp [Except.mapError, eq_comm]

/-- What a program that was read reports is lost. -/
theorem undefinedReferences_eq {program : List Statement} (h : ∀ s ∈ program, s.Written) :
    undefinedReferences program =
      givenUpFrom 0 (globalCount (declarationsFrom 0 (unroll program)))
        (lostFrom [] 0 (unroll program)) := by
  have hnamed : WellNamed ([] ++ declarationsFrom 0 (unroll program)) :=
    wellNamed_declarationsFrom (written_unroll h) 0
  rw [undefinedReferences, mentions, lostFrom]
  congr 2
  refine List.filter_congr fun m hm => ?_
  have htarget := hasTarget_iff_deferredRule hm hnamed
  cases hrule : deferredRule m.before m.after m.ref.label <;> simp_all

theorem perm_undefinedReferences (program : List Statement) :
    (undefinedReferences program).Perm
      (((mentions program).filter (¬ ·.HasTarget)).map (·.ref)) := by
  have hperm : (undefinedReferences program).Perm
      ((((mentions program).filter (¬ ·.HasTarget)).map Mention.numbered).map (·.2)) := by
    refine perm_givenUpFrom (Nat.zero_le _) fun x hx _ => ⟨Nat.zero_le _, ?_⟩
    obtain ⟨m, hm, rfl⟩ := List.mem_map.mp hx
    have hlabels := (labels_of_mem_mentionsFrom (List.mem_filter.mp hm).1).1
    rw [List.nil_append] at hlabels
    rw [← hlabels]
    exact (List.sublist_append_left _ _).countP_le
  rwa [List.map_map] at hperm

/-- A program that was read from a text, whose statements all have a machine form
and whose global labels all differ, has no image exactly if some mention has no
target.  What is reported then are the references without a target: each once,
for each region that a global label ends its local ones, in order, and then all
others.  Their gaps lie in the image one behind the other, in the order of the
mentions. -/
theorem undefined_reported {a : Assembler} {source : String} {program : List Statement}
    (hparse : parse source = .ok program)
    (henc : ∀ s ∈ unroll program, s.isEncodable = true)
    (hnodup : (Run.globalNames (declarationsFrom 0 (unroll program))).Nodup)
    (hsize : sizeSum (unroll program) < 2 ^ 32) :
    ((∃ e, (a.assembleProgram program).1 = .error e) ↔ ∃ m ∈ mentions program, ¬ m.HasTarget) ∧
    (∀ e, (a.assembleProgram program).1 = .error e →
      e = .program (.undefined (undefinedReferences program))) ∧
    (undefinedReferences program).Perm
      (((mentions program).filter (¬ ·.HasTarget)).map (·.ref)) ∧
    Apart ((mentions program).map (·.ref)) (sizeSum (unroll program)) := by
  have hwritten := written_of_parse hparse
  have hperm := perm_undefinedReferences program
  have hfails : ∀ e, (a.assembleProgram program).1 = .error e ↔
      undefinedReferences program ≠ [] ∧
        e = .program (.undefined (undefinedReferences program)) := by
    intro e
    rw [a.assembleProgram_fst_eq_error_iff]
    simp [assembleProgram_eq_error_iff henc hnodup hsize (undefinedReferences_eq hwritten)]
  have hsome : undefinedReferences program ≠ [] ↔ ∃ m ∈ mentions program, ¬ m.HasTarget := by
    rw [← List.length_pos_iff, hperm.length_eq, List.length_map, List.length_pos_iff]
    simp
  have hbound : 0 + sizeSum (unroll program) < 2 ^ 32 := by omega
  have hapart := (apart_mentionsFrom [] hbound).1
  rw [Nat.zero_add] at hapart
  refine ⟨?_, fun e he => ((hfails e).mp he).2, hperm, hapart⟩
  rw [← hsome]
  exact ⟨fun ⟨e, he⟩ => ((hfails e).mp he).1, fun h => ⟨_, (hfails _).mpr ⟨h, rfl⟩⟩⟩

/-- Global and local names without a target in three regions, one of them in a
repetition, and names with a target in between. -/
def lostNames : String :=
  "jmp x\njmp .a\ng: times 2 jmp .b\nmov (y), .a\n.a: jmp g\nh: jmp .c"

theorem undefined_reported_lostNames :
    ∃ program, parse lostNames = .ok program ∧
      (({} : Assembler).assembleProgram program).1 =
        .error (.program (.undefined (undefinedReferences program))) ∧
      (undefinedReferences program).map (fun ref => (ref.label, ref.offset.toNat, ref.pos)) =
        [(".a", 8, ⟨2, 4⟩), (".b", 14, ⟨3, 15⟩), (".b", 20, ⟨3, 15⟩), ("x", 2, ⟨1, 4⟩),
          ("y", 27, ⟨4, 4⟩), (".c", 43, ⟨6, 7⟩)] := by
  have hread : ∃ program ∈ (Parser.ofTokens (tokenize lostNames) false).parse.1.toOption,
      (∀ s ∈ unroll program, s.isEncodable = true) ∧
      (Run.globalNames (declarationsFrom 0 (unroll program))).Nodup ∧
      sizeSum (unroll program) < 2 ^ 32 ∧ (∃ m ∈ mentions program, ¬ m.HasTarget) ∧
      (undefinedReferences program).map (fun ref => (ref.label, ref.offset.toNat, ref.pos)) =
        [(".a", 8, ⟨2, 4⟩), (".b", 14, ⟨3, 15⟩), (".b", 20, ⟨3, 15⟩), ("x", 2, ⟨1, 4⟩),
          ("y", 27, ⟨4, 4⟩), (".c", 43, ⟨6, 7⟩)] := by
    decide +kernel
  obtain ⟨program, hparse, henc, hnodup, hsize, hlost, hreports⟩ := exists_parse_of_forgetful hread
  obtain ⟨hfails, herror, -, -⟩ := undefined_reported hparse henc hnodup hsize
  obtain ⟨e, he⟩ := hfails.mpr hlost
  exact ⟨program, hparse, herror e he ▸ he, hreports⟩

end RegAsm
