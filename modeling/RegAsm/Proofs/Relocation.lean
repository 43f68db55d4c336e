/-
RegAsm.Proofs.Relocation — the references of a run that wait, and the others.

A name in an instruction takes four bytes.  In every state between two statements
each of these fields has one of three fates: its name waits, and the bytes are
zero; its name was found, and the bytes are the address; or its name was lost, and
the field was reported.  What the fate of a mention is follows from the labels
before and behind it (`Mention.fate`), and a name that was found or lost stays so
whatever follows.  A run keeps the first in its list of waiting references and the
last in its list of reports (`Run.Tracks`).

1. Four bytes at an index.
2. The fate of a mention.
3. One more statement.
4. What a run knows of the mentions so far.
5. The fields of names in the places of the instructions.
6. The states between two statements.
-/
import Mathlib
import RegAsm.Proofs.Geometry
import RegAsm.Proofs.Undefined

namespace RegAsm

open Machine
open Source (Position)

/-! ## 1. Four bytes -/

/-- The four bytes from an index on. -/
def fourAt (bytes : List UInt8) (i : Nat) : List UInt8 := (bytes.drop i).take 4

theorem fourAt_congr {bytes bytes' : List UInt8} {i : Nat}
    (h : ∀ k < 4, bytes[i + k]? = bytes'[i + k]?) : fourAt bytes i = fourAt bytes' i := by
  refine List.ext_getElem? fun k => ?_
  simp only [fourAt, List.getElem?_take, List.getElem?_drop]
  by_cases hk : k < 4
  · rw [if_pos hk, if_pos hk, h k hk]
  · rw [if_neg hk, if_neg hk]

theorem fourAt_append {xs : List UInt8} (ys : List UInt8) {i : Nat} (h : i + 4 ≤ xs.length) :
    fourAt (xs ++ ys) i = fourAt xs i :=
  fourAt_congr fun k hk => List.getElem?_append_left (by omega)

theorem fourAt_append_append (xs ys : List UInt8) {new : List UInt8} (h : new.length = 4) :
    fourAt (xs ++ (new ++ ys)) xs.length = new := by
  rw [fourAt, List.drop_left, ← h, List.take_left]

theorem getElem?_overwrite_outside (bytes : List UInt8) {i j : Nat} (new : List UInt8)
    (h : j < i ∨ i + new.length ≤ j) : (overwrite bytes i new)[j]? = bytes[j]? := by
  induction new generalizing bytes i with
  | nil => rfl
  | cons b rest ih =>
    rw [List.length_cons] at h
    rw [overwrite, ih _ (by omega), List.getElem?_set_ne (by omega)]

theorem getElem?_overwrite_inside {bytes : List UInt8} {i k : Nat} {new : List UInt8}
    (h : i + new.length ≤ bytes.length) (hk : k < new.length) :
    (overwrite bytes i new)[i + k]? = new[k]? := by
  induction new generalizing bytes i k with
  | nil => cases hk
  | cons b rest ih =>
    rw [List.length_cons] at h hk
    rw [overwrite]
    cases k with
    | zero =>
      show (overwrite (bytes.set i b) (i + 1) rest)[i]? = some b
      rw [getElem?_overwrite_outside _ rest (.inl (Nat.lt_add_one i)),
        List.getElem?_set_self (by omega)]
    | succ k =>
      have hfits : i + 1 + rest.length ≤ (bytes.set i b).length := by
        rw [List.length_set]
        omega
      rw [List.getElem?_cons_succ, ← ih hfits (by omega)]
      congr 1
      omega

theorem fourAt_overwrite {bytes : List UInt8} {i : Nat} (h : i + 4 ≤ bytes.length) (v : UInt32) :
    fourAt (overwrite bytes i (fourBytes v)) i = fourBytes v := by
  refine List.ext_getElem? fun k => ?_
  simp only [fourAt, List.getElem?_take, List.getElem?_drop]
  by_cases hk : k < 4
  · rw [if_pos hk]
    exact getElem?_overwrite_inside h hk
  · rw [if_neg hk]
    exact (List.getElem?_eq_none (Nat.le_of_not_lt hk)).symm

/-- An index is in none of the gaps of some references. -/
def Outside (refs : List Reference) (i : Nat) : Prop :=
  ∀ ref ∈ refs, i < ref.offset.toNat ∨ ref.offset.toNat + 4 ≤ i

theorem getElem?_fillSome_outside (now : String → Option UInt32) {refs : List Reference}
    (bytes : List UInt8) {i : Nat} (h : Outside refs i) :
    (fillSome now refs bytes)[i]? = bytes[i]? := by
  induction refs generalizing bytes with
  | nil => rfl
  | cons ref rest ih =>
    have hfirst := h ref List.mem_cons_self
    rw [fillSome, ih _ fun r hr => h r (List.mem_cons_of_mem ref hr)]
    cases now ref.label with
    | none => rfl
    | some a => exact getElem?_overwrite_outside bytes (fourBytes a) hfirst

/-- A gap is filled if its name stands for something, and otherwise left alone. -/
theorem fourAt_fillSome (now : String → Option UInt32) {refs : List Reference}
    {bytes : List UInt8} (h : Apart refs bytes.length) {ref : Reference} (href : ref ∈ refs) :
    fourAt (fillSome now refs bytes) ref.offset.toNat =
      ((now ref.label).map fourBytes).getD (fourAt bytes ref.offset.toNat) := by
  induction refs generalizing bytes with
  | nil => cases href
  | cons first rest ih =>
    have hordered := List.pairwise_cons.mp h.ordered
    have hbelow := h.below first List.mem_cons_self
    rw [fillSome]
    rcases List.mem_cons.mp href with rfl | href
    · -- The gaps that are filled later lie behind this one.
      have hlater : ∀ k < 4, Outside rest (ref.offset.toNat + k) := by
        intro k hk other hother
        have hle := hordered.1 other hother
        left
        omega
      rw [fourAt_congr fun k hk => getElem?_fillSome_outside now _ (hlater k hk)]
      cases now ref.label with
      | none => rfl
      | some a => exact fourAt_overwrite hbelow a
    · have hle := hordered.1 ref href
      cases now first.label with
      | none => exact ih h.tail href
      | some a =>
        have htail : Apart rest (overwrite bytes first.offset.toNat (fourBytes a)).length := by
          rw [length_overwrite]
          exact h.tail
        have hsame : fourAt (overwrite bytes first.offset.toNat (fourBytes a)) ref.offset.toNat =
            fourAt bytes ref.offset.toNat := by
          refine fourAt_congr fun k _ => getElem?_overwrite_outside _ _ (.inr ?_)
          exact hle.trans (Nat.le_add_right _ _)
        rw [ih htail href, hsame]

/-! ## 2. The fate of a mention -/

/-- What can have become of a name that was mentioned. -/
inductive Fate where
  | waiting
  | lost
  | found (address : Nat)
  deriving DecidableEq, Repr

namespace Fate

/-- The bytes in the place of the name. -/
def bytes : Fate → List UInt8
  | .found a => fourBytes (UInt32.ofNat a)
  | _ => fourBytes 0

/-- What the name stands for, if `later` is what a name that waits will stand for. -/
def resolve (later : Option Nat) : Fate → Option Nat
  | .waiting => later
  | .lost => none
  | .found a => some a

/-- At a global label a name that waits is found if it is visible, and lost if it is
local and not visible.  Otherwise nothing changes. -/
def next (name : String) (before : List Declaration) (d : Declaration) : Fate → Fate
  | .waiting =>
    if d.isGlobal then
      match visible? before name with
      | some a => .found a
      | none => if isLocalName name then .lost else .waiting
    else .waiting
  | fate => fate

section Global

variable {name : String} {before : List Declaration} {d : Declaration} (hd : d.isGlobal = true)

include hd

theorem next_eq_waiting_iff (fate : Fate) :
    fate.next name before d = .waiting ↔
      fate = .waiting ∧ isLocalName name = false ∧ visible? before name = none := by
  cases fate with
  | waiting =>
    rw [next, if_pos hd]
    cases visible? before name <;> cases isLocalName name <;> simp
  | lost => simp [next]
  | found a => simp [next]

theorem next_eq_lost_iff (fate : Fate) :
    fate.next name before d = .lost ↔
      fate = .lost ∨ fate = .waiting ∧ isLocalName name = true ∧ visible? before name = none := by
  cases fate with
  | waiting =>
    rw [next, if_pos hd]
    cases visible? before name <;> cases isLocalName name <;> simp
  | lost => simp [next]
  | found a => simp [next]

/-- A gap that waited is filled if its name is visible. -/
theorem bytes_next_waiting :
    (waiting.next name before d).bytes =
      (((visible? before name).map UInt32.ofNat).map fourBytes).getD (fourBytes 0) := by
  rw [next, if_pos hd]
  cases visible? before name with
  | some a => rfl
  | none => cases isLocalName name <;> rfl

end Global

end Fate

/-- What has become of a name that waited behind some labels, once others have
followed. -/
def fateBehind (name : String) (before : List Declaration) : List Declaration → Fate
  | [] => .waiting
  | d :: after =>
    match Fate.waiting.next name before d with
    | .waiting => fateBehind name (before ++ [d]) after
    | fate => fate

/-- What has become of a mention. -/
def Mention.fate (m : Mention) : Fate :=
  match visible? m.before m.ref.label with
  | some a => .found a
  | none => fateBehind m.ref.label m.before m.after

theorem fateBehind_concat (name : String) (before after : List Declaration) (d : Declaration) :
    fateBehind name before (after ++ [d]) =
      (fateBehind name before after).next name (before ++ after) d := by
  induction after generalizing before with
  | nil =>
    rw [List.nil_append, List.append_nil, fateBehind, fateBehind]
    cases Fate.waiting.next name before d <;> rfl
  | cons first after ih =>
    rw [List.cons_append, fateBehind, fateBehind]
    cases Fate.waiting.next name before first with
    | waiting =>
      show fateBehind name (before ++ [first]) (after ++ [d]) = _
      rw [ih, List.append_assoc, List.singleton_append]
    | lost => rfl
    | found a => rfl

/-- What follows matters only to a name that still waits. -/
theorem settled?_append (name : String) (before after more : List Declaration) :
    settled? name before (after ++ more) =
      (fateBehind name before after).resolve (settled? name (before ++ after) more) := by
  induction after generalizing before with
  | nil => rw [List.nil_append, List.append_nil, fateBehind, Fate.resolve]
  | cons d after ih =>
    have hrest := ih (before ++ [d])
    rw [List.append_assoc, List.singleton_append] at hrest
    rw [List.cons_append, settled?, fateBehind, Fate.next]
    cases d.isGlobal with
    | false => exact hrest
    | true =>
      cases visible? before name with
      | some a => rfl
      | none =>
        cases isLocalName name with
        | true => rfl
        | false => exact hrest

namespace Mention

/-- The mention once more labels have followed. -/
def extend (ds : List Declaration) (m : Mention) : Mention := { m with after := m.after ++ ds }

theorem extend_nil (m : Mention) : m.extend [] = m := by
  rw [extend, List.append_nil]

theorem fate_extend (m : Mention) (d : Declaration) :
    (m.extend [d]).fate = m.fate.next m.ref.label (m.before ++ m.after) d := by
  unfold fate
  rw [extend, fateBehind_concat]
  cases visible? m.before m.ref.label <;> rfl

/-- Whatever follows, a name that was found stands for its address, and one that was
lost for nothing. -/
theorem deferredRule_append (m : Mention) (more : List Declaration) :
    deferredRule m.before (m.after ++ more) m.ref.label =
      m.fate.resolve (settled? m.ref.label (m.before ++ m.after) more) := by
  rw [deferredRule, fate]
  cases visible? m.before m.ref.label with
  | some a => rfl
  | none => exact settled?_append m.ref.label m.before m.after more

end Mention

/-! ## 3. One more statement -/

/-- The labels of one more statement follow the mentions so far, and its own
references have all labels so far before them. -/
theorem mentionsFrom_concat (before : List Declaration) (address : Nat) (ss : List Statement)
    (s : Statement) :
    mentionsFrom before address (ss ++ [s]) =
      (mentionsFrom before address ss).map
          (Mention.extend (s.declarations (address + sizeSum ss))) ++
        (s.references (address + sizeSum ss)).map
          (⟨before ++ declarationsFrom address ss, s.declarations (address + sizeSum ss), ·⟩) := by
  induction ss generalizing before address with
  | nil => simp [mentionsFrom, declarationsFrom]
  | cons first rest ih =>
    simp only [List.cons_append, mentionsFrom, ih, declarationsFrom_append, declarationsFrom,
      sizeSum_cons, List.map_append, List.map_map, List.append_assoc, List.append_nil,
      Nat.add_assoc]
    congr 1
    refine List.map_congr_left fun ref _ => ?_
    simp [Mention.extend]

/-! ## 4. Runs -/

/-- The gaps of two mentions have no byte in common. -/
def Mention.Clear (m m' : Mention) : Prop :=
  m.ref.offset.toNat + 4 ≤ m'.ref.offset.toNat ∨ m'.ref.offset.toNat + 4 ≤ m.ref.offset.toNat

instance : Std.Symm Mention.Clear := ⟨fun _ _ => Or.symm⟩

theorem Apart.clear {ms : List Mention} {limit : Nat} (h : Apart (ms.map (·.ref)) limit)
    {m m' : Mention} (hm : m ∈ ms) (hm' : m' ∈ ms) (hne : m ≠ m') : m.Clear m' := by
  have hordered : ms.Pairwise Mention.Clear := (List.pairwise_map.mp h.ordered).imp .inl
  exact hordered.forall hm hm' hne

theorem exists_mem_map_iff {α : Type} {xs : List α} {f : α → Mention} {p : Mention → Prop} :
    (∃ m ∈ xs.map f, p m) ↔ ∃ x ∈ xs, p (f x) := by
  simp only [List.mem_map, exists_exists_and_eq_and]

namespace Run

/-- What a run knows of the mentions so far. -/
structure Tracks (ms : List Mention) (r : Run) : Prop where
  /-- It keeps those that wait. -/
  pending : ∀ ref, ref ∈ r.pending.toList ↔ ∃ m ∈ ms, m.fate = .waiting ∧ m.ref = ref
  /-- It has reported those that are lost. -/
  undefined : ∀ ref, ref ∈ r.undefined.toList ↔ ∃ m ∈ ms, m.fate = .lost ∧ m.ref = ref
  /-- The bytes of each are what its fate says. -/
  bytes : ∀ m ∈ ms, fourAt r.code.toList m.ref.offset.toNat = m.fate.bytes

section Step

variable {ms : List Mention} {r r' : Run} {before : List Declaration} {address : Nat}

theorem tracks_start : Tracks [] {} :=
  ⟨fun ref => by simp, fun ref => by simp, List.forall_mem_nil _⟩

/-- Only the fates and the references of the mentions matter. -/
theorem Tracks.map (h : Tracks ms r) {f : Mention → Mention}
    (hf : ∀ m, (f m).fate = m.fate ∧ (f m).ref = m.ref) : Tracks (ms.map f) r := by
  refine ⟨fun ref => ?_, fun ref => ?_, ?_⟩
  · simpa only [exists_mem_map_iff, hf] using h.pending ref
  · simpa only [exists_mem_map_iff, hf] using h.undefined ref
  · simpa only [List.forall_mem_map, hf] using h.bytes

/-- Bytes behind all gaps play no part. -/
theorem Tracks.append (h : Tracks ms r) (hapart : Apart (ms.map (·.ref)) r.code.size)
    (hpending : r'.pending = r.pending) (hundefined : r'.undefined = r.undefined)
    {more : List UInt8} (hcode : r'.code.toList = r.code.toList ++ more) : Tracks ms r' := by
  refine ⟨hpending ▸ h.pending, hundefined ▸ h.undefined, fun m hm => ?_⟩
  have hbelow := hapart.below m.ref (List.mem_map_of_mem hm)
  rw [hcode, fourAt_append more hbelow]
  exact h.bytes m hm

/-- Filling the gaps that wait leaves the others alone. -/
theorem Tracks.fourAt_fillSome (h : Tracks ms r) (hapart : Apart (ms.map (·.ref)) r.code.size)
    (hsound : r.Sound) (now : String → Option UInt32) {m : Mention} (hm : m ∈ ms) :
    fourAt (fillSome now r.pending.toList r.code.toList) m.ref.offset.toNat =
      if m.fate = .waiting then ((now m.ref.label).map fourBytes).getD (fourBytes 0)
      else m.fate.bytes := by
  by_cases hwaiting : m.fate = .waiting
  · have hmem : m.ref ∈ r.pending.toList := (h.pending m.ref).mpr ⟨m, hm, hwaiting, rfl⟩
    have hzero : fourAt r.code.toList m.ref.offset.toNat = fourBytes 0 := by
      rw [h.bytes m hm, hwaiting]
      rfl
    rw [if_pos hwaiting, RegAsm.fourAt_fillSome now hsound hmem, hzero]
  · rw [if_neg hwaiting, ← h.bytes m hm]
    refine fourAt_congr fun k hk => getElem?_fillSome_outside now _ fun ref href => ?_
    obtain ⟨m', hm', hwaiting', rfl⟩ := (h.pending ref).mp href
    have hne : m ≠ m' := fun heq => hwaiting (heq ▸ hwaiting')
    have hclear := hapart.clear hm hm' hne
    unfold Mention.Clear at hclear
    omega

/-- At a global label the fates of the mentions that wait are decided. -/
theorem Tracks.label {name : String} {pos : Position} (h : Tracks ms r)
    (hf : r.Follows before address) (hlabels : ∀ m ∈ ms, m.before ++ m.after = before)
    (hapart : Apart (ms.map (·.ref)) r.code.size) (hemit : emit (.label name pos) r = .ok r') :
    Tracks (ms.map (Mention.extend [⟨true, name, address⟩])) r' := by
  obtain ⟨hundefined, hpending⟩ := emit_label_waiting hf hemit
  have hcode : r'.code.toList = fillSome r.table.find? r.pending.toList r.code.toList := by
    obtain ⟨table, events, rfl⟩ := exists_table_of_emit_label hemit
    obtain ⟨events', hpatch⟩ := r.patch_eq
    simp only [hpatch, closeRegion]
  have hnext : ∀ m ∈ ms, (m.extend [⟨true, name, address⟩]).fate =
      m.fate.next m.ref.label before ⟨true, name, address⟩ := by
    intro m hm
    rw [m.fate_extend, hlabels m hm]
  have hglobal : (⟨true, name, address⟩ : Declaration).isGlobal = true := rfl
  refine ⟨fun ref => ?_, fun ref => ?_, ?_⟩
  · rw [hpending, List.mem_filter, h.pending, exists_mem_map_iff]
    constructor
    · rintro ⟨⟨m, hm, hwaiting, rfl⟩, hkept⟩
      rw [Bool.and_eq_true, Bool.not_eq_true', Option.isNone_iff_eq_none] at hkept
      exact ⟨m, hm, (hnext m hm).trans ((Fate.next_eq_waiting_iff hglobal _).mpr ⟨hwaiting, hkept⟩),
        rfl⟩
    · rintro ⟨m, hm, hfate, rfl⟩
      rw [hnext m hm, Fate.next_eq_waiting_iff hglobal] at hfate
      refine ⟨⟨m, hm, hfate.1, rfl⟩, ?_⟩
      simpa [Mention.extend] using hfate.2
  · rw [hundefined, List.mem_append, h.undefined, List.mem_filter, h.pending, exists_mem_map_iff]
    constructor
    · rintro (⟨m, hm, hlost, rfl⟩ | ⟨⟨m, hm, hwaiting, rfl⟩, hgone⟩)
      · exact ⟨m, hm, (hnext m hm).trans ((Fate.next_eq_lost_iff hglobal _).mpr (.inl hlost)), rfl⟩
      · rw [Bool.and_eq_true, Option.isNone_iff_eq_none] at hgone
        exact ⟨m, hm, (hnext m hm).trans
          ((Fate.next_eq_lost_iff hglobal _).mpr (.inr ⟨hwaiting, hgone⟩)), rfl⟩
    · rintro ⟨m, hm, hfate, rfl⟩
      rw [hnext m hm, Fate.next_eq_lost_iff hglobal] at hfate
      refine hfate.imp (fun hlost => ⟨m, hm, hlost, rfl⟩) fun hgone => ⟨⟨m, hm, hgone.1, rfl⟩, ?_⟩
      simpa [Mention.extend] using hgone.2
  · rw [List.forall_mem_map]
    intro m hm
    rw [hcode, hnext m hm]
    show fourAt _ m.ref.offset.toNat = _
    rw [h.fourAt_fillSome hapart hf.sound _ hm, hf.find?]
    cases hfate : m.fate with
    | waiting => rw [if_pos rfl, Fate.bytes_next_waiting hglobal]
    | lost => rfl
    | found a => rfl

/-- A local label decides nothing. -/
theorem Tracks.localLabel {name : String} {pos : Position} (h : Tracks ms r)
    (hf : r.Follows before address) (hapart : Apart (ms.map (·.ref)) r.code.size)
    (hemit : emit (.localLabel name pos) r = .ok r') :
    Tracks (ms.map (Mention.extend [⟨false, name, address⟩])) r' := by
  obtain ⟨events, heq⟩ := emit_localLabel_eq hf name pos
  rw [heq, Except.ok.injEq] at hemit
  subst hemit
  have hsame : ∀ m : Mention, (m.extend [⟨false, name, address⟩]).fate = m.fate := by
    intro m
    rw [m.fate_extend]
    cases m.fate <;> rfl
  have hgrown : Tracks ms { r with
      table := tableOf (before ++ [⟨false, name, address⟩])
      declared := r.declared.push ⟨name, UInt32.ofNat address⟩
      events } :=
    h.append hapart rfl rfl (List.append_nil _).symm
  exact hgrown.map fun m => ⟨hsame m, rfl⟩

theorem Tracks.data {items : List Operand} {pos : Position} (h : Tracks ms r)
    (hapart : Apart (ms.map (·.ref)) r.code.size) (hemit : emit (.data items pos) r = .ok r') :
    Tracks ms r' := by
  obtain ⟨bytes, -, rfl⟩ := emit_data_eq_ok_iff.mp hemit
  exact h.append hapart rfl rfl Array.toList_appendList

/-- A field that mentions a name holds its address, or nothing if it is not
visible. -/
theorem fourAt_writeFields (fields : List Field) (r : Run)
    (hsize : r.code.size + (fields.map Field.width).sum < 2 ^ 32) :
    ∀ ref ∈ fieldReferences r.code.size fields,
      fourAt (fields.foldl writeField r).code.toList ref.offset.toNat =
        fourBytes ((r.table.find? ref.label).getD 0) := by
  induction fields generalizing r with
  | nil => exact List.forall_mem_nil _
  | cons f rest ih =>
    rw [List.map_cons, List.sum_cons] at hsize
    have hgrown := r.size_writeField f
    intro ref href
    rw [List.foldl_cons]
    rcases List.mem_append.mp href with href | href
    · cases f with
      | address label pos =>
        obtain rfl := List.mem_singleton.mp href
        have hoffset : (UInt32.ofNat r.code.size).toNat = r.code.toList.length :=
          UInt32.toNat_ofNat_of_lt' (by simp only [UInt32.size]; omega)
        obtain ⟨⟨more, hmore⟩, -⟩ := writeFields_behind rest (r.writeField (.address label pos))
          (by omega)
        have hcode : (r.writeField (.address label pos)).code.toList =
            r.code.toList ++ fourBytes ((r.table.find? label).getD 0) := by
          rw [writeField, refer]
          cases r.table.find? label <;> exact Array.toList_appendList
        rw [hmore, hcode, List.append_assoc, hoffset, fourAt_append_append _ _ rfl]
      | byte b => cases href
      | value v size => cases href
    · rw [← hgrown] at href
      rw [ih (r.writeField f) (by omega) ref href, (r.sameBooks_writeField f).table]

/-- An instruction leaves the bytes so far alone, and the field of a name holds what is
visible. -/
theorem fourAt_emit_instruction {m : Mnemonic} {operands : List Operand} {pos : Position}
    (hf : r.Follows before address) (hemit : emit (.instruction m operands pos) r = .ok r')
    (hsize : r'.code.size < 2 ^ 32) :
    (∀ i, i + 4 ≤ r.code.size → fourAt r'.code.toList i = fourAt r.code.toList i) ∧
    ∀ ref ∈ (Statement.instruction m operands pos).references address,
      fourAt r'.code.toList ref.offset.toNat =
        fourBytes (((visible? before ref.label).map UInt32.ofNat).getD 0) := by
  obtain ⟨e, events, he, rfl⟩ := exists_encoding_of_emit hemit
  have hhead : (r.append e.head).code.size = address + e.head.length := by
    rw [append, size_appendList, hf.size]
  have hfit : (r.append e.head).code.size + (e.fields.map Field.width).sum < 2 ^ 32 :=
    (size_writeFields e.fields (r.append e.head)).symm.trans_lt hsize
  obtain ⟨⟨more, hmore⟩, -⟩ := writeFields_behind e.fields (r.append e.head) hfit
  refine ⟨fun i hi => ?_, fun ref href => ?_⟩
  · rw [hmore, append, Array.toList_appendList, List.append_assoc, fourAt_append _ hi]
  · simp only [Statement.references, he, operandReferences_of_ok he, ← hhead] at href
    rw [fourAt_writeFields e.fields _ hfit ref href, ← hf.find?]
    rfl

/-- The references of an instruction are found if they are visible, and wait if
not. -/
theorem Tracks.instruction {m : Mnemonic} {operands : List Operand} {pos : Position}
    (h : Tracks ms r) (hf : r.Follows before address)
    (hapart : Apart (ms.map (·.ref)) r.code.size)
    (hemit : emit (.instruction m operands pos) r = .ok r') (hsize : r'.code.size < 2 ^ 32) :
    Tracks (ms ++ ((Statement.instruction m operands pos).references address).map
      (⟨before, [], ·⟩)) r' := by
  obtain ⟨hundefined, hpending⟩ := emit_instruction_waiting hf hemit
  have hfate : ∀ ref : Reference, (⟨before, [], ref⟩ : Mention).fate =
      (visible? before ref.label).elim .waiting .found := by
    intro ref
    unfold Mention.fate
    cases visible? before ref.label <;> rfl
  have hwaiting : ∀ ref : Reference,
      (⟨before, [], ref⟩ : Mention).fate = .waiting ↔ (visible? before ref.label).isNone := by
    intro ref
    rw [hfate]
    cases visible? before ref.label <;> simp
  have hlost : ∀ ref : Reference, (⟨before, [], ref⟩ : Mention).fate ≠ .lost := by
    intro ref
    rw [hfate]
    cases visible? before ref.label <;> simp
  refine ⟨fun ref => ?_, fun ref => ?_, ?_⟩
  · rw [hpending, List.mem_append, h.pending, List.mem_filter]
    simp only [List.mem_append, or_and_right, exists_or, exists_mem_map_iff, hwaiting]
    refine or_congr_right ⟨fun hnew => ⟨ref, hnew.1, hnew.2, rfl⟩, ?_⟩
    rintro ⟨ref, href, hnone, rfl⟩
    exact ⟨href, hnone⟩
  · rw [hundefined, h.undefined]
    simp only [List.mem_append, or_and_right, exists_or, exists_mem_map_iff, hlost, false_and,
      and_false, exists_false, or_false]
  · obtain ⟨hold, hnew⟩ := fourAt_emit_instruction hf hemit hsize
    rw [List.forall_mem_append]
    refine ⟨fun m hm => ?_, ?_⟩
    · rw [hold _ (hapart.below m.ref (List.mem_map_of_mem hm))]
      exact h.bytes m hm
    · rw [List.forall_mem_map]
      intro ref href
      rw [hfate, hnew ref href]
      cases visible? before ref.label <;> rfl

end Step

/-- One more statement. -/
theorem Tracks.step {done : List Statement} {s : Statement} {r r' : Run}
    (h : Tracks (mentionsFrom [] 0 done) r) (hcharted : Charted done r) (hs : s.isSimple = true)
    (hemit : emit s r = .ok r') (hsize : r'.code.size < 2 ^ 32) :
    Tracks (mentionsFrom [] 0 (done ++ [s])) r' := by
  have hf := hcharted.follows
  have hgrown := size_emit hs hemit
  have hapart : Apart ((mentionsFrom [] 0 done).map (·.ref)) r.code.size := by
    have hbound : 0 + sizeSum done < 2 ^ 32 := by
      rw [Nat.zero_add, ← hf.size]
      omega
    rw [hf.size, ← Nat.zero_add (sizeSum done)]
    exact (apart_mentionsFrom [] hbound).1
  have hlabels : ∀ m ∈ mentionsFrom [] 0 done, m.before ++ m.after = declarationsFrom 0 done :=
    fun m hm => (labels_of_mem_mentionsFrom hm).1
  rw [mentionsFrom_concat, Nat.zero_add, List.nil_append]
  have hnone : (mentionsFrom [] 0 done).map (Mention.extend []) = mentionsFrom [] 0 done :=
    List.map_id'' Mention.extend_nil _
  cases s with
  | label name pos =>
    simp only [Statement.references, List.map_nil, List.append_nil]
    exact h.label hf hlabels hapart hemit
  | localLabel name pos =>
    simp only [Statement.references, List.map_nil, List.append_nil]
    exact h.localLabel hf hapart hemit
  | instruction m operands pos =>
    simp only [Statement.declarations, hnone]
    exact h.instruction hf hapart hemit hsize
  | data items pos =>
    simp only [Statement.declarations, hnone, Statement.references, List.map_nil, List.append_nil]
    exact h.data hapart hemit
  | times count body pos => cases hs
  | bareTimes count pos => cases hemit
  | other tag m operands pos => cases hemit

end Run

/-! ## 5. Fields of names -/

/-- A reference is that of an operand of an instruction at a place: the operand is a
name, direct or indirect, and the reference fills its four bytes. -/
structure Machine.Layout.HoldsName (l : Layout) (s : Statement) (k : Nat) (ref : Reference) :
    Prop where
  operand : ∃ m operands pos o, s = .instruction m operands pos ∧ operands[k]? = some o ∧
    o.form.label? = some ref.label ∧ o.pos = ref.pos
  width : l.widths[k]? = some 4
  /-- The operands stand at the end of an instruction. -/
  offset : (ref.offset.toNat : Int) =
    l.offset.toNat + (l.length - l.widths.sum) + (l.widths.take k).sum

theorem mem_operandReferences {address : Nat} {operands : List (Operand × Nat)} {ref : Reference} :
    ref ∈ operandReferences address operands ↔
      ∃ k o width, operands[k]? = some (o, width) ∧ o.form.label? = some ref.label ∧
        o.pos = ref.pos ∧
        ref.offset = UInt32.ofNat (address + ((operands.map (·.2)).take k).sum) := by
  induction operands generalizing address with
  | nil => simp [operandReferences]
  | cons first rest ih =>
    obtain ⟨o, width⟩ := first
    rw [operandReferences, List.mem_append, ih]
    constructor
    · rintro (hfirst | ⟨k, o', width', hget, hlabel, hpos, hoffset⟩)
      · rw [Option.mem_toList, Option.map_eq_some_iff] at hfirst
        obtain ⟨label, hlabel, rfl⟩ := hfirst
        exact ⟨0, o, width, rfl, hlabel, rfl, rfl⟩
      · refine ⟨k + 1, o', width', hget, hlabel, hpos, ?_⟩
        rw [hoffset, List.map_cons, List.take_succ_cons, List.sum_cons, Nat.add_assoc]
    · rintro ⟨k, o', width', hget, hlabel, hpos, hoffset⟩
      cases k with
      | zero =>
        cases hget
        left
        rw [Option.mem_toList, Option.map_eq_some_iff]
        refine ⟨ref.label, hlabel, ?_⟩
        obtain ⟨label, offset, pos⟩ := ref
        simp only at hpos hoffset
        rw [hpos, hoffset]
        rfl
      | succ k =>
        right
        refine ⟨k, o', width', hget, hlabel, hpos, ?_⟩
        rw [hoffset, List.map_cons, List.take_succ_cons, List.sum_cons, Nat.add_assoc]

/-- A name takes four bytes. -/
theorem Encoding.width_of_label {m : Mnemonic} {operands : List Operand} {e : Encoding}
    (h : Encoding.of m operands = .ok e) {k : Nat} {o : Operand} (ho : operands[k]? = some o)
    {label : String} (hlabel : o.form.label? = some label) : e.widths[k]? = some 4 := by
  have hwidth : ∀ size, (fieldOf size o).width = 4 := by
    intro size
    obtain ⟨form, pos⟩ := o
    cases form with
    | name label => rfl
    | indirectName label => rfl
    | _ => cases hlabel
  obtain ⟨-, ⟨rfl, -, -, -⟩ | ⟨mode, -, -, -, -, hfields⟩⟩ := Encoding.of_eq_ok h
  · cases ho
  · rw [widths, hfields, List.getElem?_map]
    cases operands with
    | nil => cases ho
    | cons dst sources =>
      cases k with
      | zero =>
        cases ho
        simp [fieldsOf, hwidth]
      | succ k =>
        rw [List.getElem?_cons_succ] at ho
        simp [fieldsOf, ho, hwidth]

/-- The references of an instruction are those of its operands. -/
theorem mem_references_iff {m : Mnemonic} {operands : List Operand} {pos : Position} {e : Encoding}
    (h : Encoding.of m operands = .ok e) {address : Nat} (hsize : address + e.length < 2 ^ 32)
    {ref : Reference} :
    ref ∈ (Statement.instruction m operands pos).references address ↔
      ∃ k, (e.layout address).HoldsName (.instruction m operands pos) k ref := by
  have hcount : e.widths.length = operands.length := (Encoding.length_of_ok h).2.1
  have hsum : ∀ ws : List Nat, (ws.map Int.ofNat).sum = (ws.sum : Nat) :=
    fun ws => (Nat.cast_list_sum ws).symm
  have hoffset : ∀ k, ref.offset =
        UInt32.ofNat (address + e.head.length + (e.widths.take k).sum) ↔
      (ref.offset.toNat : Int) = (e.layout address).offset.toNat +
        ((e.layout address).length - (e.layout address).widths.sum) +
        ((e.layout address).widths.take k).sum := by
    intro k
    have htake := List.sum_take_add_sum_drop e.widths k
    have hlength := e.length_eq
    have hstart : (e.layout address).offset.toNat = address := e.toNat_offset_layout (by omega)
    have hfield : (UInt32.ofNat (address + e.head.length + (e.widths.take k).sum)).toNat =
        address + e.head.length + (e.widths.take k).sum :=
      UInt32.toNat_ofNat_of_lt' (by simp only [UInt32.size]; omega)
    have hwidths : (e.layout address).widths = e.widths.map Int.ofNat := rfl
    have hstated : (e.layout address).length = (e.length : Int) := rfl
    rw [← UInt32.toNat_inj, hfield, hstart, hwidths, hstated, ← List.map_take, hsum, hsum, hlength]
    omega
  simp only [Statement.references, h, mem_operandReferences,
    List.map_snd_zip (Nat.le_of_eq hcount), List.getElem?_zip_eq_some]
  refine exists_congr fun k => ?_
  constructor
  · rintro ⟨o, width, ⟨ho, -⟩, hlabel, hpos, hplace⟩
    refine ⟨⟨m, operands, pos, o, rfl, ho, hlabel, hpos⟩, ?_, (hoffset k).mp hplace⟩
    show (e.widths.map Int.ofNat)[k]? = some 4
    rw [List.getElem?_map, Encoding.width_of_label h ho hlabel]
    rfl
  · rintro ⟨⟨m', operands', pos', o, heq, ho, hlabel, hpos⟩, -, hplace⟩
    cases heq
    exact ⟨o, 4, ⟨ho, Encoding.width_of_label h ho hlabel⟩, hlabel, hpos, (hoffset k).mpr hplace⟩

/-- A reference is that of operand number `k` of instruction number `j`. -/
def NameAt (layouts : List Layout) (instructions : List Statement) (j k : Nat) (ref : Reference) :
    Prop :=
  ∃ l s, layouts[j]? = some l ∧ instructions[j]? = some s ∧ l.HoldsName s k ref

theorem exists_nameAt_cons {l : Layout} {layouts : List Layout} {s : Statement}
    {instructions : List Statement} {ref : Reference} :
    (∃ j k, NameAt (l :: layouts) (s :: instructions) j k ref) ↔
      (∃ k, l.HoldsName s k ref) ∨ ∃ j k, NameAt layouts instructions j k ref := by
  constructor
  · rintro ⟨j, k, l', s', hl, hs, hname⟩
    cases j with
    | zero =>
      cases hl
      cases hs
      exact .inl ⟨k, hname⟩
    | succ j => exact .inr ⟨j, k, l', s', hl, hs, hname⟩
  · rintro (⟨k, hname⟩ | ⟨j, k, l', s', hl, hs, hname⟩)
    · exact ⟨0, k, l, s, rfl, rfl, hname⟩
    · exact ⟨j + 1, k, l', s', hl, hs, hname⟩

/-- The mentions so far are the names among the operands of the instructions. -/
theorem exists_mention_iff {ss : List Statement} (h : ∀ s ∈ ss, s.isEncodable = true)
    (before : List Declaration) {address : Nat} (hsize : address + sizeSum ss < 2 ^ 32)
    {ref : Reference} :
    (∃ m ∈ mentionsFrom before address ss, m.ref = ref) ↔
      ∃ j k, NameAt (layoutsFrom address ss) (ss.filter (·.isInstruction)) j k ref := by
  induction ss generalizing before address with
  | nil => simp [mentionsFrom, layoutsFrom, NameAt]
  | cons s rest ih =>
    rw [sizeSum_cons] at hsize
    have hfits : address + s.size + sizeSum rest < 2 ^ 32 := by omega
    have hrest := ih (fun t ht => h t (List.mem_cons_of_mem s ht))
      (before ++ s.declarations address) hfits
    have hs := h s List.mem_cons_self
    simp only [mentionsFrom, List.mem_append, or_and_right, exists_or, exists_mem_map_iff,
      exists_eq_right, hrest]
    cases s with
    | instruction m operands pos =>
      obtain ⟨e, he⟩ := (Statement.isEncodable_instruction_iff pos).mp hs
      have hlength := Statement.size_instruction he pos
      have hlayouts : layoutsFrom address (.instruction m operands pos :: rest) =
          e.layout address :: layoutsFrom (address + e.length) rest := by
        rw [layoutsFrom, Statement.layouts_instruction he, hlength, List.singleton_append]
      rw [hlayouts, hlength, mem_references_iff he (by omega)]
      exact exists_nameAt_cons.symm
    | label name pos => simp [Statement.references, layoutsFrom, Statement.layouts]; rfl
    | localLabel name pos => simp [Statement.references, layoutsFrom, Statement.layouts]; rfl
    | data items pos => simp [Statement.references, layoutsFrom, Statement.layouts]; rfl
    | times count body pos => cases hs
    | bareTimes count pos => cases hs
    | other tag m operands pos => cases hs

/-- The operands in front of one end where it starts. -/
theorem sum_take_add_le {ws : List Int} (hws : ∀ w ∈ ws, 0 ≤ w) {i j : Nat} {w : Int}
    (hi : ws[i]? = some w) (hij : i < j) : (ws.take i).sum + w ≤ (ws.take j).sum := by
  have hnext : ws.take (i + 1) = ws.take i ++ [w] := by
    rw [List.take_add_one, hi, Option.toList_some]
  have hsplit : ws.take (i + 1) ++ (ws.take j).drop (i + 1) = ws.take j := by
    have hcut := List.take_append_drop (i + 1) (ws.take j)
    rwa [List.take_take, Nat.min_eq_left hij] at hcut
  have hmore : 0 ≤ ((ws.take j).drop (i + 1)).sum :=
    List.sum_nonneg fun x hx => hws x (List.mem_of_mem_take (List.mem_of_mem_drop hx))
  rw [← hsplit, hnext, List.sum_append, List.sum_append, List.sum_singleton]
  omega

theorem widths_of_mem_layoutsFrom {ss : List Statement} {address : Nat} {l : Layout}
    (h : l ∈ layoutsFrom address ss) : (∀ w ∈ l.widths, 0 ≤ w) ∧ l.widths.sum ≤ l.length := by
  induction ss generalizing address with
  | nil => cases h
  | cons s rest ih =>
    rcases List.mem_append.mp h with h | h
    · obtain ⟨m, operands, pos, e, -, -, rfl, -⟩ := s.exists_of_mem_layouts h
      have hsum : (e.widths.map Int.ofNat).sum = (e.widths.sum : Nat) :=
        (Nat.cast_list_sum e.widths).symm
      have hlength := e.length_eq
      refine ⟨fun w hw => ?_, ?_⟩
      · obtain ⟨n, -, rfl⟩ := List.mem_map.mp hw
        exact Int.natCast_nonneg n
      · show (e.widths.map Int.ofNat).sum ≤ (e.length : Int)
        omega
    · exact ih h

/-- The field of a name lies inside its instruction. -/
theorem Machine.Layout.HoldsName.inside {l : Layout} {s : Statement} {k : Nat} {ref : Reference}
    (h : l.HoldsName s k ref) (hws : ∀ w ∈ l.widths, 0 ≤ w) (hsum : l.widths.sum ≤ l.length) :
    l.offset.toNat ≤ ref.offset.toNat ∧
      (ref.offset.toNat : Int) + 4 ≤ l.offset.toNat + l.length := by
  have hk : k < l.widths.length := (List.getElem?_eq_some_iff.mp h.width).1
  have hfront : 0 ≤ (l.widths.take k).sum :=
    List.sum_nonneg fun w hw => hws w (List.mem_of_mem_take hw)
  have hall := sum_take_add_le hws h.width hk
  rw [List.take_length] at hall
  have hoffset := h.offset
  omega

/-- Two operands of one instruction do not have the same field. -/
theorem Machine.Layout.HoldsName.le {l : Layout} {s s' : Statement} {k k' : Nat} {ref : Reference}
    (h : l.HoldsName s k ref) (h' : l.HoldsName s' k' ref) (hws : ∀ w ∈ l.widths, 0 ≤ w) :
    k' ≤ k := by
  refine Nat.le_of_not_lt fun hlt => ?_
  have hfront := sum_take_add_le hws h.width hlt
  have hoffset := h.offset
  have hoffset' := h'.offset
  omega

/-- Two instructions do not have the same field. -/
theorem NameAt.le {ss : List Statement} (hsize : sizeSum ss < 2 ^ 32)
    {instructions : List Statement} {j k j' k' : Nat} {ref : Reference}
    (h : NameAt (layoutsFrom 0 ss) instructions j k ref)
    (h' : NameAt (layoutsFrom 0 ss) instructions j' k' ref) : j' ≤ j := by
  obtain ⟨l, s, hl, -, hname⟩ := h
  obtain ⟨l', s', hl', -, hname'⟩ := h'
  refine Nat.le_of_not_lt fun hlt => ?_
  obtain ⟨hj, rfl⟩ := List.getElem?_eq_some_iff.mp hl
  obtain ⟨hj', rfl⟩ := List.getElem?_eq_some_iff.mp hl'
  have hbound : 0 + sizeSum ss < 2 ^ 32 := by omega
  have hbehind := List.pairwise_iff_getElem.mp (apart_layoutsFrom hbound) j j' hj hj' hlt
  obtain ⟨hws, hsum⟩ := widths_of_mem_layoutsFrom (List.getElem_mem hj)
  obtain ⟨hws', hsum'⟩ := widths_of_mem_layoutsFrom (List.getElem_mem hj')
  have hinside := hname.inside hws hsum
  have hinside' := hname'.inside hws' hsum'
  omega

/-- No field is that of two operands. -/
theorem NameAt.unique {ss : List Statement} (hsize : sizeSum ss < 2 ^ 32)
    {instructions : List Statement} {j k j' k' : Nat} {ref : Reference}
    (h : NameAt (layoutsFrom 0 ss) instructions j k ref)
    (h' : NameAt (layoutsFrom 0 ss) instructions j' k' ref) : j = j' ∧ k = k' := by
  obtain rfl : j = j' := Nat.le_antisymm (h'.le hsize h) (h.le hsize h')
  obtain ⟨l, s, hl, -, hname⟩ := h
  obtain ⟨l', s', hl', -, hname'⟩ := h'
  obtain rfl : l = l' := Option.some.inj (hl.symm.trans hl')
  have hws := (widths_of_mem_layoutsFrom (List.mem_of_getElem? hl)).1
  exact ⟨rfl, Nat.le_antisymm (hname'.le hname hws) (hname.le hname' hws)⟩

/-- An operand has one field. -/
theorem NameAt.eq {layouts : List Layout} {instructions : List Statement} {j k : Nat}
    {ref ref' : Reference} (h : NameAt layouts instructions j k ref)
    (h' : NameAt layouts instructions j k ref') : ref = ref' := by
  obtain ⟨l, s, hl, hs, ⟨m, operands, pos, o, heq, ho, hlabel, hpos⟩, -, hoffset⟩ := h
  obtain ⟨l', s', hl', hs', ⟨m', operands', pos', o', heq', ho', hlabel', hpos'⟩, -, hoffset'⟩ := h'
  obtain rfl : l = l' := Option.some.inj (hl.symm.trans hl')
  obtain rfl : s = s' := Option.some.inj (hs.symm.trans hs')
  rw [heq] at heq'
  cases heq'
  obtain rfl : o = o' := Option.some.inj (ho.symm.trans ho')
  obtain ⟨label, offset, place⟩ := ref
  obtain ⟨label', offset', place'⟩ := ref'
  simp only at hlabel hlabel' hpos hpos' hoffset hoffset'
  have hsame : offset = offset' := by
    rw [← UInt32.toNat_inj]
    omega
  rw [← hpos, ← hpos', hsame, Option.some.inj (hlabel.symm.trans hlabel')]

/-! ## 6. The states between two statements -/

namespace Run

/-- The references of a run that wait, and the others, once some statements have been
placed. -/
structure Relocations (done : List Statement) (r : Run) : Prop where
  /-- The gaps that wait lie one behind the other inside the image, -/
  apart : Apart r.pending.toList r.code.size
  /-- and hold nothing. -/
  zero : ∀ ref ∈ r.pending.toList, fourAt r.code.toList ref.offset.toNat = [0, 0, 0, 0]
  /-- Each is the field of a name, of one operand of one instruction, -/
  field : ∀ ref ∈ r.pending.toList, ∃! p : Nat × Nat,
    NameAt r.layouts.toList (done.filter (·.isInstruction)) p.1 p.2 ref
  /-- and no two are the same field. -/
  separate : r.pending.toList.Pairwise fun ref ref' => ∀ j k,
    ¬ (NameAt r.layouts.toList (done.filter (·.isInstruction)) j k ref ∧
      NameAt r.layouts.toList (done.filter (·.isInstruction)) j k ref')
  /-- Every other field of a name holds the address that its name stands for, whatever
  follows, or its name stands for nothing, whatever follows, and was reported. -/
  others : ∀ j k ref, NameAt r.layouts.toList (done.filter (·.isInstruction)) j k ref →
    ref ∉ r.pending.toList → ∃ m ∈ mentionsFrom [] 0 done, m.ref = ref ∧
      ((∃ a, (∀ more, deferredRule m.before (m.after ++ more) ref.label = some a) ∧
          fourAt r.code.toList ref.offset.toNat = fourBytes (UInt32.ofNat a)) ∨
        (∀ more, deferredRule m.before (m.after ++ more) ref.label = none) ∧
          ref ∈ r.undefined.toList)
  /-- Patching keeps the size of the image, -/
  size_patch : r.patch.code.size = r.code.size
  /-- changes no byte outside the gaps that wait, -/
  patch_outside : ∀ i, Outside r.pending.toList i → r.patch.code[i]? = r.code[i]?
  /-- and fills those whose names are visible. -/
  patch_inside : ∀ ref ∈ r.pending.toList, fourAt r.patch.code.toList ref.offset.toNat =
    ((r.table.find? ref.label).map fourBytes).getD [0, 0, 0, 0]

theorem Tracks.relocations {done : List Statement} {r : Run}
    (h : Tracks (mentionsFrom [] 0 done) r) (hcharted : Charted done r)
    (hsize : r.code.size < 2 ^ 32) : Relocations done r := by
  have hsum : sizeSum done < 2 ^ 32 := hcharted.follows.size ▸ hsize
  have hbound : 0 + sizeSum done < 2 ^ 32 := by omega
  have hsound := hcharted.follows.sound
  have hfields : ∀ ref, (∃ m ∈ mentionsFrom [] 0 done, m.ref = ref) ↔
      ∃ j k, NameAt r.layouts.toList (done.filter (·.isInstruction)) j k ref := by
    intro ref
    rw [hcharted.layouts]
    exact exists_mention_iff hcharted.encodable [] hbound
  have hzero : ∀ ref ∈ r.pending.toList, fourAt r.code.toList ref.offset.toNat = fourBytes 0 := by
    intro ref href
    obtain ⟨m, hm, hwaiting, rfl⟩ := (h.pending ref).mp href
    rw [h.bytes m hm, hwaiting]
    rfl
  obtain ⟨events, hpatch⟩ := r.patch_eq
  have hcode : r.patch.code.toList = fillSome r.table.find? r.pending.toList r.code.toList := by
    rw [hpatch]
  refine ⟨hsound, hzero, ?_, ?_, ?_, ?_, ?_, ?_⟩
  · intro ref href
    obtain ⟨m, hm, -, hmref⟩ := (h.pending ref).mp href
    obtain ⟨j, k, hname⟩ := (hfields ref).mp ⟨m, hm, hmref⟩
    refine ⟨(j, k), hname, fun p hp => ?_⟩
    simp only [hcharted.layouts] at hname hp
    obtain ⟨hj, hk⟩ := hp.unique hsum hname
    exact Prod.ext hj hk
  · refine hsound.ordered.imp fun {ref ref'} hle j k hboth => ?_
    rw [hboth.1.eq hboth.2] at hle
    omega
  · intro j k ref hname hnot
    obtain ⟨m, hm, rfl⟩ := (hfields ref).mpr ⟨j, k, hname⟩
    refine ⟨m, hm, rfl, ?_⟩
    simp only [m.deferredRule_append, h.bytes m hm]
    cases hfate : m.fate with
    | waiting => exact absurd ((h.pending m.ref).mpr ⟨m, hm, hfate, rfl⟩) hnot
    | lost => exact .inr ⟨fun more => rfl, (h.undefined m.ref).mpr ⟨m, hm, hfate, rfl⟩⟩
    | found a => exact .inl ⟨a, fun more => rfl, rfl⟩
  · rw [← Array.length_toList, hcode, length_fillSome, Array.length_toList]
  · intro i hi
    rw [← Array.getElem?_toList, ← Array.getElem?_toList, hcode]
    exact getElem?_fillSome_outside _ _ hi
  · intro ref href
    rw [hcode, RegAsm.fourAt_fillSome _ hsound href, hzero ref href]
    rfl

end Run

/-- In every state of a run between two statements, repetitions written out, each field
of a name waits, is filled or has been reported, and the gaps that wait are known.  The
run over the program goes on from that state. -/
theorem relocations_between {program done rest : List Statement} {r : Run}
    (hprogram : unroll program = done ++ rest) (hrun : Run.emitAll done {} = .ok r)
    (hsize : r.code.size < 2 ^ 32) :
    Run.emitAll program {} = Run.emitAll rest r ∧ Run.Relocations done r := by
  have hsimple : ∀ s ∈ done, s.isSimple = true := by
    intro s hs
    have hmem : s ∈ unroll program := hprogram ▸ List.mem_append_left rest hs
    exact isSimple_of_mem_unroll hmem
  refine ⟨?_, ?_⟩
  · rw [← Run.emitAll_unroll, hprogram, Run.emitAll_append, hrun]
    rfl
  · have hstates : Run.Charted ([] ++ done) r ∧ Run.Tracks (mentionsFrom [] 0 ([] ++ done)) r := by
      refine Run.emitAll_induction
        (P := fun done r => Run.Charted done r ∧ Run.Tracks (mentionsFrom [] 0 done) r)
        ?_ ⟨Run.charted_start, Run.tracks_start⟩ hsimple hrun hsize
      rintro done s r r' ⟨hcharted, htracks⟩ hs hemit hsize
      exact ⟨hcharted.step hs hemit hsize, htracks.step hcharted hs hemit hsize⟩
    exact hstates.2.relocations hstates.1 hsize

/-- A name that is declared last, mentioned twice by a repetition, a local name that
never is, and one that is mentioned in front of its label and behind it. -/
def threeFates : List Statement :=
  [.times 2 (.instruction (.op .jmp) [⟨.name "late", .nowhere⟩] .nowhere) .nowhere,
    .instruction (.op .jmp) [⟨.name ".gone", .nowhere⟩] .nowhere,
    .instruction (.op .jmp) [⟨.indirectName "g", .nowhere⟩] .nowhere,
    .label "g" .nowhere,
    .instruction (.op .jmp) [⟨.name "g", .nowhere⟩] .nowhere,
    .label "h" .nowhere]

theorem relocations_between_threeFates :
    ∃ r, Run.emitAll (unroll threeFates) {} = .ok r ∧
      r.pending.toList.map (fun ref => (ref.label, ref.offset.toNat)) = [("late", 2), ("late", 8)] ∧
      r.undefined.toList.map (fun ref => (ref.label, ref.offset.toNat)) = [(".gone", 14)] ∧
      fourAt r.code.toList 20 = [24, 0, 0, 0] ∧ fourAt r.code.toList 26 = [24, 0, 0, 0] ∧
      Run.emitAll (threeFates ++ [.label "late" .nowhere]) {} =
        Run.emitAll [.label "late" .nowhere] r ∧
      Run.Relocations (unroll threeFates) r := by
  have hstate : ∃ r ∈ (Run.emitAll (unroll threeFates) {}).toOption,
      r.pending.toList.map (fun ref => (ref.label, ref.offset.toNat)) =
        [("late", 2), ("late", 8)] ∧
      r.undefined.toList.map (fun ref => (ref.label, ref.offset.toNat)) = [(".gone", 14)] ∧
      fourAt r.code.toList 20 = [24, 0, 0, 0] ∧ fourAt r.code.toList 26 = [24, 0, 0, 0] ∧
      r.code.size < 2 ^ 32 := by
    decide +kernel
  obtain ⟨r, hr, hpending, hundefined, hfirst, hsecond, hsize⟩ := hstate
  have hrun : Run.emitAll (unroll threeFates) {} = .ok r := by
    cases h : Run.emitAll (unroll threeFates) {} with
    | error e => rw [h] at hr; cases hr
    | ok r' => rw [h] at hr; cases hr; rfl
  have hprogram : unroll (threeFates ++ [.label "late" .nowhere]) =
      unroll threeFates ++ [.label "late" .nowhere] := by
    rw [unroll, List.flatMap_append]
    rfl
  obtain ⟨hrest, hrelocations⟩ := relocations_between hprogram hrun hsize
  exact ⟨r, hrun, hpending, hundefined, hfirst, hsecond, hrest, hrelocations⟩

end RegAsm
