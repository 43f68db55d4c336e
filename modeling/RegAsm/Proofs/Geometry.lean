/-
RegAsm.Proofs.Geometry — how bytes, instructions and labels lie in an image.

A run keeps its bytes, the places of its instructions and its labels in three
lists, and each kind of statement adds to some of them.  In every state of a run
the three fit together (`Run.Geometry`): the places lie one behind the other
inside the bytes, no label falls into one of them, and what they leave out is the
data.  Patching writes into bytes that were placed long before, so it has to be
known that a gap that waits lies inside an instruction.

1. Places and labels of statements.
2. Bytes that no instruction covers.
3. Gaps lie inside instructions.
4. What the statements so far say about a run.
5. The states of a run.
-/
import Mathlib
import RegAsm.Proofs.Decoding

namespace RegAsm

open Machine
open Source (Position)

/-! ## 1. Places and labels of statements -/

/-- The instruction at a place covers an offset. -/
def Machine.Layout.Covers (l : Layout) (i : Nat) : Prop :=
  l.offset.toNat ≤ i ∧ (i : Int) < l.offset.toNat + l.length

instance (l : Layout) (i : Nat) : Decidable (l.Covers i) :=
  inferInstanceAs (Decidable (_ ∧ _))

theorem Statement.exists_of_mem_layouts {s : Statement} {address : Nat} {l : Layout}
    (h : l ∈ s.layouts address) :
    ∃ m operands pos e, s = .instruction m operands pos ∧ Encoding.of m operands = .ok e ∧
      l = e.layout address ∧ s.size = e.length := by
  cases s with
  | instruction m operands pos =>
    cases he : Encoding.of m operands with
    | error f => simp [Statement.layouts, he] at h
    | ok e =>
      rw [Statement.layouts_instruction he, List.mem_singleton] at h
      exact ⟨m, operands, pos, e, rfl, he, h, Statement.size_instruction he pos⟩
  | _ => cases h

theorem Statement.address_of_mem_declarations {s : Statement} {address : Nat} {d : Declaration}
    (h : d ∈ s.declarations address) : d.address = address := by
  cases s with
  | label name pos => rw [List.mem_singleton.mp h]
  | localLabel name pos => rw [List.mem_singleton.mp h]
  | _ => cases h

theorem Encoding.toNat_offset_layout (e : Encoding) {address : Nat} (h : address < 2 ^ 32) :
    (e.layout address).offset.toNat = address :=
  UInt32.toNat_ofNat_of_lt' h

/-- The place of an instruction lies between the start of the statements and
their end. -/
theorem extent_of_mem_layoutsFrom {ss : List Statement} {address : Nat} {l : Layout}
    (h : l ∈ layoutsFrom address ss) (hbound : address + sizeSum ss < 2 ^ 32) :
    address ≤ l.offset.toNat ∧ 0 < l.length ∧
      l.offset.toNat + l.length ≤ (address + sizeSum ss : Nat) := by
  induction ss generalizing address with
  | nil => cases h
  | cons s rest ih =>
    rw [sizeSum_cons] at hbound ⊢
    rcases List.mem_append.mp h with h | h
    · obtain ⟨m, operands, pos, e, -, -, rfl, hsize⟩ := s.exists_of_mem_layouts h
      have hoffset : (e.layout address).offset.toNat = address :=
        e.toNat_offset_layout (by omega)
      have hlength : (e.layout address).length = (e.length : Int) := rfl
      have hpos := e.length_pos
      omega
    · have hrest := ih h (by omega)
      omega

/-- The places of the instructions lie one behind the other. -/
theorem apart_layoutsFrom {ss : List Statement} {address : Nat}
    (hbound : address + sizeSum ss < 2 ^ 32) :
    (layoutsFrom address ss).Pairwise fun l l' : Layout =>
      l.offset.toNat + l.length ≤ l'.offset.toNat := by
  induction ss generalizing address with
  | nil => exact List.Pairwise.nil
  | cons s rest ih =>
    rw [sizeSum_cons] at hbound
    refine List.pairwise_append.mpr ⟨?_, ih (by omega), ?_⟩
    · cases s with
      | instruction m operands pos =>
        rw [Statement.layouts]
        split
        · exact List.pairwise_singleton _ _
        · exact List.Pairwise.nil
      | _ => exact List.Pairwise.nil
    · intro l hl l' hl'
      have hone : l ∈ layoutsFrom address [s] := by simpa [layoutsFrom] using hl
      have hsum : sizeSum [s] = s.size := by simp
      have hfirst := extent_of_mem_layoutsFrom hone (by omega)
      have hsecond := extent_of_mem_layoutsFrom hl' (by omega)
      omega

theorem address_of_mem_declarationsFrom {ss : List Statement} {address : Nat} {d : Declaration}
    (h : d ∈ declarationsFrom address ss) :
    address ≤ d.address ∧ d.address ≤ address + sizeSum ss := by
  induction ss generalizing address with
  | nil => cases h
  | cons s rest ih =>
    rw [sizeSum_cons]
    rcases List.mem_append.mp h with h | h
    · rw [s.address_of_mem_declarations h]
      omega
    · have hrest := ih h
      omega

/-- The labels stand in order of their addresses. -/
theorem pairwise_declarationsFrom (address : Nat) (ss : List Statement) :
    (declarationsFrom address ss).Pairwise (·.address ≤ ·.address) := by
  induction ss generalizing address with
  | nil => exact List.Pairwise.nil
  | cons s rest ih =>
    refine List.pairwise_append.mpr ⟨?_, ih _, ?_⟩
    · cases s with
      | label name pos => exact List.pairwise_singleton _ _
      | localLabel name pos => exact List.pairwise_singleton _ _
      | _ => exact List.Pairwise.nil
    · intro d hd d' hd'
      have hhere := s.address_of_mem_declarations hd
      have hbehind := (address_of_mem_declarationsFrom hd').1
      omega

/-- No label falls into an instruction. -/
theorem label_outside_layout {ss : List Statement} {address : Nat} {d : Declaration} {l : Layout}
    (hd : d ∈ declarationsFrom address ss) (hl : l ∈ layoutsFrom address ss)
    (hbound : address + sizeSum ss < 2 ^ 32) :
    d.address ≤ l.offset.toNat ∨ l.offset.toNat + l.length ≤ d.address := by
  induction ss generalizing address with
  | nil => cases hd
  | cons s rest ih =>
    rw [sizeSum_cons] at hbound
    rcases List.mem_append.mp hd with hd | hd
    · -- A label of this statement lies in front of all places.
      left
      have hhere := s.address_of_mem_declarations hd
      have hfront := extent_of_mem_layoutsFrom hl (by rw [sizeSum_cons]; omega)
      omega
    · rcases List.mem_append.mp hl with hl | hl
      · obtain ⟨m, operands, pos, e, -, -, rfl, hsize⟩ := s.exists_of_mem_layouts hl
        have hoffset : (e.layout address).offset.toNat = address :=
          e.toNat_offset_layout (by omega)
        have hlength : (e.layout address).length = (e.length : Int) := rfl
        have hbehind := (address_of_mem_declarationsFrom hd).1
        omega
      · exact ih hd hl (by omega)

/-- An instruction without operands is one byte.  Any other has an opcode byte, a
mode byte, a size byte if the opcode is sized, and its operands. -/
theorem Encoding.length_of_ok {m : Mnemonic} {operands : List Operand} {e : Encoding}
    (h : Encoding.of m operands = .ok e) :
    m.opcode? = some e.opcode ∧ e.widths.length = operands.length ∧
      e.length =
        if operands = [] then 1
        else 2 + (if e.opcode.hasSize then 1 else 0) + e.widths.sum := by
  obtain ⟨hop, hparts⟩ := Encoding.of_eq_ok h
  refine ⟨hop, ?_⟩
  rcases hparts with ⟨rfl, hmode, hsize, hfields⟩ | ⟨mode, hmode, hmodeOf, hsize, -, hfields⟩
  · rw [Encoding.length_eq, Encoding.head, Encoding.widths, hmode, hsize, hfields]
    exact ⟨rfl, rfl⟩
  · have hne : operands ≠ [] := by
      rintro rfl
      cases hmodeOf
    have hcount : (Encoding.fieldsOf e.size operands).length = operands.length := by
      cases operands <;> simp [Encoding.fieldsOf]
    have hsized := (Encoding.sizeFor_eq_ok hsize).1
    rw [Encoding.length_eq, Encoding.head, hmode, if_neg hne, hsized]
    refine ⟨by rw [Encoding.widths, hfields, List.length_map, hcount], ?_⟩
    cases e.size <;> simp

/-- What the place of an instruction says about the statement it comes from. -/
def Machine.Layout.Fits (l : Layout) (s : Statement) : Prop :=
  ∃ m operands pos op, s = .instruction m operands pos ∧ m.opcode? = some op ∧
    l.widths.length = operands.length ∧
    l.length = if operands = [] then 1 else 2 + (if op.hasSize then 1 else 0) + l.widths.sum

theorem fits_layoutsFrom {ss : List Statement} (h : ∀ s ∈ ss, s.isEncodable = true)
    (address : Nat) :
    List.Forall₂ Layout.Fits (layoutsFrom address ss) (ss.filter (·.isInstruction)) := by
  induction ss generalizing address with
  | nil => exact .nil
  | cons s rest ih =>
    have hrest := ih (fun t ht => h t (List.mem_cons_of_mem s ht)) (address + s.size)
    have hs := h s List.mem_cons_self
    cases s with
    | instruction m operands pos =>
      obtain ⟨e, he⟩ := (Statement.isEncodable_instruction_iff pos).mp hs
      obtain ⟨hop, hwidths, hlength⟩ := Encoding.length_of_ok he
      rw [layoutsFrom, Statement.layouts_instruction he]
      refine .cons ⟨m, operands, pos, e.opcode, rfl, hop, ?_, ?_⟩ hrest
      · rw [← hwidths]
        exact List.length_map _
      · have hsum : (e.widths.map Int.ofNat).sum = (e.widths.sum : Nat) :=
          (Nat.cast_list_sum e.widths).symm
        simp only [Encoding.layout, hlength, hsum]
        split <;> simp
    | _ => exact hrest

/-! ## 2. Bytes that no instruction covers -/

/-- Some instruction covers an offset. -/
def Covered (layouts : List Layout) (i : Nat) : Prop := ∃ l ∈ layouts, l.Covers i

instance (layouts : List Layout) (i : Nat) : Decidable (Covered layouts i) :=
  inferInstanceAs (Decidable (∃ l ∈ layouts, l.Covers i))

theorem covered_append (layouts layouts' : List Layout) (i : Nat) :
    Covered (layouts ++ layouts') i ↔ Covered layouts i ∨ Covered layouts' i := by
  simp only [Covered, List.mem_append, or_and_right, exists_or]

/-- The bytes that no instruction covers, in order, where the first byte has the
offset `start`. -/
def uncoveredFrom (layouts : List Layout) (start : Nat) : List UInt8 → List UInt8
  | [] => []
  | b :: rest =>
    if Covered layouts start then uncoveredFrom layouts (start + 1) rest
    else b :: uncoveredFrom layouts (start + 1) rest

section Uncovered

variable {layouts layouts' : List Layout}

theorem uncoveredFrom_append (start : Nat) (xs ys : List UInt8) :
    uncoveredFrom layouts start (xs ++ ys) =
      uncoveredFrom layouts start xs ++ uncoveredFrom layouts (start + xs.length) ys := by
  induction xs generalizing start with
  | nil => rfl
  | cons b xs ih =>
    have hnext : start + (b :: xs).length = start + 1 + xs.length := by
      rw [List.length_cons]
      omega
    rw [List.cons_append, uncoveredFrom, uncoveredFrom, ih, hnext]
    split <;> rfl

/-- Only the offsets of the bytes matter. -/
theorem uncoveredFrom_congr {start : Nat} {bytes : List UInt8}
    (h : ∀ i, start ≤ i → i < start + bytes.length → (Covered layouts i ↔ Covered layouts' i)) :
    uncoveredFrom layouts start bytes = uncoveredFrom layouts' start bytes := by
  induction bytes generalizing start with
  | nil => rfl
  | cons b rest ih =>
    rw [List.length_cons] at h
    have hhere := h start (Nat.le_refl _) (by omega)
    have hrest : uncoveredFrom layouts (start + 1) rest = uncoveredFrom layouts' (start + 1) rest :=
      ih fun i hlow hhigh => h i (by omega) (by omega)
    simp only [uncoveredFrom, hhere, hrest]

theorem uncoveredFrom_nil (start : Nat) (bytes : List UInt8) :
    uncoveredFrom [] start bytes = bytes := by
  induction bytes generalizing start with
  | nil => rfl
  | cons b rest ih => simp [uncoveredFrom, Covered, ih]

theorem uncoveredFrom_covered {start : Nat} {bytes : List UInt8}
    (h : ∀ i, start ≤ i → i < start + bytes.length → Covered layouts i) :
    uncoveredFrom layouts start bytes = [] := by
  induction bytes generalizing start with
  | nil => rfl
  | cons b rest ih =>
    rw [List.length_cons] at h
    rw [uncoveredFrom, if_pos (h start (Nat.le_refl _) (by omega))]
    exact ih fun i hlow hhigh => h i (by omega) (by omega)

/-- A byte that an instruction covers may change. -/
theorem uncoveredFrom_set {start i : Nat} (bytes : List UInt8) (b : UInt8)
    (h : Covered layouts (start + i)) :
    uncoveredFrom layouts start (bytes.set i b) = uncoveredFrom layouts start bytes := by
  induction bytes generalizing start i with
  | nil => rfl
  | cons c rest ih =>
    cases i with
    | zero =>
      rw [Nat.add_zero] at h
      simp only [List.set_cons_zero, uncoveredFrom, if_pos h]
    | succ i =>
      have hrest : uncoveredFrom layouts (start + 1) (rest.set i b) =
          uncoveredFrom layouts (start + 1) rest :=
        ih (by rwa [Nat.add_assoc, Nat.add_comm 1])
      simp only [List.set_cons_succ, uncoveredFrom, hrest]

theorem uncoveredFrom_overwrite {i : Nat} (bytes new : List UInt8)
    (h : ∀ k < new.length, Covered layouts (i + k)) :
    uncoveredFrom layouts 0 (overwrite bytes i new) = uncoveredFrom layouts 0 bytes := by
  induction new generalizing bytes i with
  | nil => rfl
  | cons b rest ih =>
    rw [List.length_cons] at h
    have hfirst : Covered layouts (0 + i) := by
      rw [Nat.zero_add]
      exact h 0 (Nat.succ_pos _)
    rw [overwrite, ih, uncoveredFrom_set _ _ hfirst]
    intro k hk
    rw [Nat.add_assoc, Nat.add_comm 1]
    exact h (k + 1) (by omega)

/-- Filling gaps that lie inside instructions changes no other byte. -/
theorem uncoveredFrom_fillSome {now : String → Option UInt32} {refs : List Reference}
    (bytes : List UInt8) (h : ∀ ref ∈ refs, ∀ k < 4, Covered layouts (ref.offset.toNat + k)) :
    uncoveredFrom layouts 0 (fillSome now refs bytes) = uncoveredFrom layouts 0 bytes := by
  induction refs generalizing bytes with
  | nil => rfl
  | cons ref rest ih =>
    rw [fillSome, ih _ fun r hr => h r (List.mem_cons_of_mem ref hr)]
    cases now ref.label with
    | none => rfl
    | some a => exact uncoveredFrom_overwrite bytes (fourBytes a) (h ref List.mem_cons_self)

end Uncovered

/-! ## 3. Gaps lie inside instructions -/

namespace Run

/-- Every gap that waits lies inside an instruction. -/
def GapsCovered (r : Run) : Prop :=
  ∀ ref ∈ r.pending.toList, ∀ k < 4, Covered r.layouts.toList (ref.offset.toNat + k)

/-- Fields are written behind the bytes so far, and so are the gaps they leave. -/
theorem writeField_behind (r : Run) (f : Field) (hsize : r.code.size < 2 ^ 32) :
    (∃ bytes, (r.writeField f).code.toList = r.code.toList ++ bytes) ∧
    ∀ ref ∈ (r.writeField f).pending.toList,
      ref ∈ r.pending.toList ∨
        r.code.size ≤ ref.offset.toNat ∧ ref.offset.toNat + 4 ≤ (r.writeField f).code.size := by
  cases f with
  | byte b => exact ⟨⟨[b], Array.toList_appendList⟩, fun ref h => .inl h⟩
  | value v size => exact ⟨⟨valueBytes v size, Array.toList_appendList⟩, fun ref h => .inl h⟩
  | address label pos =>
    have hgrown := size_writeField r (.address label pos)
    rw [writeField, refer] at hgrown ⊢
    cases hfind : r.table.find? label with
    | some a => exact ⟨⟨fourBytes a, Array.toList_appendList⟩, fun ref h => .inl h⟩
    | none =>
      simp only [hfind] at hgrown ⊢
      refine ⟨⟨fourBytes 0, Array.toList_appendList⟩, fun ref h => ?_⟩
      rw [Array.toList_push, List.mem_append, List.mem_singleton] at h
      refine h.imp_right ?_
      rintro rfl
      have hoffset : r.offset.toNat = r.code.size := UInt32.toNat_ofNat_of_lt' hsize
      rw [hgrown, hoffset]
      exact ⟨Nat.le_refl _, Nat.le_refl _⟩

theorem writeFields_behind (fields : List Field) (r : Run)
    (hsize : r.code.size + (fields.map Field.width).sum < 2 ^ 32) :
    (∃ bytes, (fields.foldl writeField r).code.toList = r.code.toList ++ bytes) ∧
    ∀ ref ∈ (fields.foldl writeField r).pending.toList,
      ref ∈ r.pending.toList ∨
        r.code.size ≤ ref.offset.toNat ∧
          ref.offset.toNat + 4 ≤ (fields.foldl writeField r).code.size := by
  induction fields generalizing r with
  | nil => exact ⟨⟨[], by simp⟩, fun ref h => .inl h⟩
  | cons f rest ih =>
    rw [List.map_cons, List.sum_cons] at hsize
    have hgrown := r.size_writeField f
    have hall := size_writeFields rest (r.writeField f)
    obtain ⟨⟨bytes, hbytes⟩, hgaps⟩ := r.writeField_behind f (by omega)
    obtain ⟨⟨bytes', hbytes'⟩, hgaps'⟩ := ih (r.writeField f) (by omega)
    refine ⟨⟨bytes ++ bytes', ?_⟩, ?_⟩
    · rw [List.foldl_cons, hbytes', hbytes, List.append_assoc]
    · intro ref href
      rw [List.foldl_cons] at href ⊢
      rcases hgaps' ref href with href | hlater
      · rcases hgaps ref href with href | hnow
        · exact .inl href
        · right
          omega
      · right
        omega

/-- A run has done nothing but fill or give up some of its gaps. -/
structure Fills (r r' : Run) : Prop where
  layouts : r'.layouts = r.layouts
  declared : r'.declared = r.declared
  pending : r'.pending.toList ⊆ r.pending.toList
  code : ∃ now, r'.code.toList = fillSome now r.pending.toList r.code.toList

theorem fillSome_none (refs : List Reference) (bytes : List UInt8) :
    fillSome (fun _ => none) refs bytes = bytes := by
  induction refs with
  | nil => rfl
  | cons ref rest ih => exact ih

theorem Fills.of_code_eq {r r' : Run} (hlayouts : r'.layouts = r.layouts)
    (hdeclared : r'.declared = r.declared) (hpending : r'.pending = r.pending)
    (hcode : r'.code = r.code) : Fills r r' := by
  refine ⟨hlayouts, hdeclared, ?_, fun _ => none, ?_⟩
  · rw [hpending]
    exact List.Subset.refl _
  · rw [hcode, fillSome_none]

theorem fills_patch (r : Run) : Fills r r.patch := by
  obtain ⟨events, h⟩ := r.patch_eq
  rw [h]
  exact ⟨rfl, rfl, List.filter_subset_self _, r.table.find?, rfl⟩

theorem fills_closeRegion (r : Run) : Fills r r.patch.closeRegion := by
  obtain ⟨hlayouts, hdeclared, hpending, hcode⟩ := r.fills_patch
  refine ⟨hlayouts, hdeclared, ?_, hcode⟩
  rw [closeRegion, Array.toList_filter]
  exact List.Subset.trans (List.filter_subset_self _) hpending

/-- A statement that is refused leaves the run as it was, but for gaps. -/
theorem fills_of_emit_error {s : Statement} {r r' : Run} {f : Fault} (hs : s.isSimple = true)
    (h : emit s r = .error (f, r')) : Fills r r' := by
  have hsame : Fills r r := .of_code_eq rfl rfl rfl rfl
  cases s with
  | label name pos =>
    rw [emit, declare] at h
    split at h
    · cases h
      obtain ⟨hlayouts, hdeclared, hpending, hcode⟩ := r.fills_closeRegion
      exact ⟨hlayouts, hdeclared, hpending, hcode⟩
    · cases h
  | localLabel name pos =>
    rw [emit, declare] at h
    split at h
    · cases h
      exact .of_code_eq rfl rfl rfl rfl
    · cases h
  | instruction m operands pos =>
    rw [emit] at h
    split at h <;> cases h
    exact hsame
  | data items pos =>
    rw [emit] at h
    split at h <;> cases h
    exact hsame
  | times count body pos => cases hs
  | bareTimes count pos => cases h; exact hsame
  | other tag m operands pos => cases h; exact hsame

theorem Fills.uncovered {r r' : Run} (h : Fills r r') (hgaps : r.GapsCovered) :
    r'.GapsCovered ∧
      uncoveredFrom r'.layouts.toList 0 r'.code.toList =
        uncoveredFrom r.layouts.toList 0 r.code.toList := by
  obtain ⟨now, hcode⟩ := h.code
  refine ⟨fun ref href k hk => ?_, ?_⟩
  · rw [h.layouts]
    exact hgaps ref (h.pending href) k hk
  · rw [h.layouts, hcode, uncoveredFrom_fillSome _ hgaps]

theorem Fills.size {r r' : Run} (h : Fills r r') : r'.code.size = r.code.size := by
  obtain ⟨now, hcode⟩ := h.code
  rw [← Array.length_toList, hcode, length_fillSome, Array.length_toList]

end Run

/-! ## 4. What the statements so far say about a run -/

/-- The bytes that a statement writes as data. -/
def Statement.dataWritten : Statement → List UInt8
  | .data items _ => (dataBytes items).toOption.getD []
  | _ => []

namespace Run

/-- A run is what the statements that it has placed say. -/
structure Charted (done : List Statement) (r : Run) : Prop where
  follows : r.Follows (declarationsFrom 0 done) (sizeSum done)
  layouts : r.layouts.toList = layoutsFrom 0 done
  declared : r.declared.toList = (declarationsFrom 0 done).map (·.symbol)
  encodable : ∀ s ∈ done, s.isEncodable = true
  gaps : r.GapsCovered
  data : uncoveredFrom r.layouts.toList 0 r.code.toList = done.flatMap Statement.dataWritten

theorem charted_start : Charted [] {} :=
  ⟨follows_start, rfl, rfl, List.forall_mem_nil _, List.forall_mem_nil _, rfl⟩

theorem isEncodable_of_emit {s : Statement} {r r' : Run} (hs : s.isSimple = true)
    (h : emit s r = .ok r') : s.isEncodable = true := by
  cases s with
  | label name pos => rfl
  | localLabel name pos => rfl
  | instruction m operands pos =>
    obtain ⟨e, he, -⟩ := emit_instruction_eq_ok_iff.mp h
    exact (Statement.isEncodable_instruction_iff pos).mpr ⟨e, he⟩
  | data items pos =>
    obtain ⟨bytes, hb, -⟩ := emit_data_eq_ok_iff.mp h
    exact (Statement.isEncodable_data_iff pos).mpr ⟨bytes, hb⟩
  | times count body pos => cases hs
  | bareTimes count pos => cases h
  | other tag m operands pos => cases h

section Step

variable {r r' : Run} {before : List Declaration} {address : Nat} (hgaps : r.GapsCovered)

include hgaps

/-- Data are covered by no instruction. -/
theorem emit_data_uncovered {items : List Operand} {pos : Position}
    (hinside : ∀ i, Covered r.layouts.toList i → i < r.code.size)
    (h : emit (.data items pos) r = .ok r') :
    r'.GapsCovered ∧
      uncoveredFrom r'.layouts.toList 0 r'.code.toList =
        uncoveredFrom r.layouts.toList 0 r.code.toList ++
          (Statement.data items pos).dataWritten := by
  obtain ⟨bytes, hb, rfl⟩ := emit_data_eq_ok_iff.mp h
  refine ⟨hgaps, ?_⟩
  have hnew : uncoveredFrom r.layouts.toList r.code.size bytes = bytes := by
    refine (uncoveredFrom_congr fun i hlow _ => ?_).trans (uncoveredFrom_nil r.code.size bytes)
    have hnot : ¬ Covered r.layouts.toList i := fun hc => by
      have := hinside i hc
      omega
    simp [Covered] at hnot ⊢
    exact hnot
  simp only [report, append, Array.toList_appendList, Statement.dataWritten, hb,
    Except.toOption, Option.getD_some]
  rw [uncoveredFrom_append, Nat.zero_add, Array.length_toList, hnew]

/-- An instruction covers exactly the bytes that it adds, with the gaps in them. -/
theorem emit_instruction_uncovered {m : Mnemonic} {operands : List Operand} {pos : Position}
    (hf : r.Follows before address)
    (hsize : address + (Statement.instruction m operands pos).size < 2 ^ 32)
    (h : emit (.instruction m operands pos) r = .ok r') :
    r'.GapsCovered ∧
      uncoveredFrom r'.layouts.toList 0 r'.code.toList =
        uncoveredFrom r.layouts.toList 0 r.code.toList := by
  have hlayouts := (emit_instruction hf hsize h).layouts
  have hgrown := size_emit rfl h
  obtain ⟨e, events, he, hr'⟩ := exists_encoding_of_emit h
  have hlength := Statement.size_instruction he pos
  rw [Statement.layouts_instruction he] at hlayouts
  have hcode := congrArg Run.code hr'
  have hpending := congrArg Run.pending hr'
  have hhead : (r.append e.head).code.size = r.code.size + e.head.length := by
    rw [append, size_appendList]
  have hfit : (r.append e.head).code.size + (e.fields.map Field.width).sum < 2 ^ 32 := by
    rw [hlength, Encoding.length_eq, Encoding.widths, ← hf.size] at hsize
    omega
  obtain ⟨⟨bytes, hbytes⟩, hwaiting⟩ := writeFields_behind e.fields (r.append e.head) hfit
  -- The new place covers the offsets from the old end of the image to the new one.
  have hcovers : ∀ i, (e.layout address).Covers i ↔ r.code.size ≤ i ∧ i < r'.code.size := by
    intro i
    have hoffset : (e.layout address).offset.toNat = address :=
      e.toNat_offset_layout (by omega)
    have hstated : (e.layout address).length = (e.length : Int) := rfl
    rw [Layout.Covers, hoffset, hstated, hgrown, hlength, hf.size]
    omega
  have hcovered : ∀ i, Covered r'.layouts.toList i ↔
      Covered r.layouts.toList i ∨ r.code.size ≤ i ∧ i < r'.code.size := by
    intro i
    rw [hlayouts, covered_append, ← hcovers]
    simp [Covered]
  refine ⟨?_, ?_⟩
  · intro ref href k hk
    rw [hcovered]
    rw [hpending] at href
    rcases hwaiting ref href with hold | hnew
    · exact .inl (hgaps ref hold k hk)
    · right
      rw [← hcode] at hnew
      omega
  · have hsplit : r'.code.toList = r.code.toList ++ (e.head ++ bytes) := by
      rw [hcode, hbytes, append, Array.toList_appendList, List.append_assoc]
    have hlen : (e.head ++ bytes).length = e.length := by
      have htotal := congrArg List.length hsplit
      rw [List.length_append, Array.length_toList, Array.length_toList] at htotal
      omega
    rw [hsplit, uncoveredFrom_append, Nat.zero_add, Array.length_toList]
    have hnew : uncoveredFrom r'.layouts.toList r.code.size (e.head ++ bytes) = [] := by
      refine uncoveredFrom_covered fun i hlow hhigh => ?_
      rw [hcovered]
      right
      omega
    have hold : uncoveredFrom r'.layouts.toList 0 r.code.toList =
        uncoveredFrom r.layouts.toList 0 r.code.toList := by
      refine uncoveredFrom_congr fun i _ hhigh => ?_
      rw [Nat.zero_add, Array.length_toList] at hhigh
      rw [hcovered, or_iff_left (by omega)]
    rw [hnew, hold, List.append_nil]

/-- Only data add bytes that no instruction covers. -/
theorem emit_uncovered {s : Statement} (hs : s.isSimple = true)
    (hinside : ∀ i, Covered r.layouts.toList i → i < r.code.size) (hf : r.Follows before address)
    (hsize : address + s.size < 2 ^ 32) (h : emit s r = .ok r') :
    r'.GapsCovered ∧
      uncoveredFrom r'.layouts.toList 0 r'.code.toList =
        uncoveredFrom r.layouts.toList 0 r.code.toList ++ s.dataWritten := by
  cases s with
  | label name pos =>
    obtain ⟨hclosed, hbytes⟩ := r.fills_closeRegion.uncovered hgaps
    obtain ⟨table, events, rfl⟩ := exists_table_of_emit_label h
    exact ⟨hclosed, hbytes.trans (List.append_nil _).symm⟩
  | localLabel name pos =>
    obtain ⟨table, events, rfl⟩ := exists_table_of_emit_localLabel h
    exact ⟨hgaps, (List.append_nil _).symm⟩
  | instruction m operands pos =>
    obtain ⟨hcovered, hbytes⟩ := emit_instruction_uncovered hgaps hf hsize h
    exact ⟨hcovered, hbytes.trans (List.append_nil _).symm⟩
  | data items pos => exact emit_data_uncovered hgaps hinside h
  | times count body pos => cases hs
  | bareTimes count pos => cases h
  | other tag m operands pos => cases h

end Step

theorem Charted.inside {done : List Statement} {r : Run} (h : Charted done r)
    (hsize : r.code.size < 2 ^ 32) : ∀ i, Covered r.layouts.toList i → i < r.code.size := by
  rintro i ⟨l, hl, hlow, hhigh⟩
  rw [h.layouts] at hl
  rw [h.follows.size] at hsize ⊢
  have hextent := extent_of_mem_layoutsFrom hl (by omega)
  omega

/-- One more statement. -/
theorem Charted.step {done : List Statement} {s : Statement} {r r' : Run} (h : Charted done r)
    (hs : s.isSimple = true) (hemit : emit s r = .ok r') (hsize : r'.code.size < 2 ^ 32) :
    Charted (done ++ [s]) r' := by
  have hgrown := size_emit hs hemit
  have hfits : sizeSum done + s.size < 2 ^ 32 := by
    rw [← h.follows.size]
    omega
  have hstep := emit_spec hs h.follows hfits hemit
  obtain ⟨hgaps, hdata⟩ :=
    emit_uncovered h.gaps hs (h.inside (by omega)) h.follows hfits hemit
  have hlabels : declarationsFrom 0 (done ++ [s]) =
      declarationsFrom 0 done ++ s.declarations (sizeSum done) := by
    simp [declarationsFrom_append, declarationsFrom]
  refine ⟨?_, ?_, ?_, ?_, hgaps, ?_⟩
  · rw [hlabels, sizeSum_append, sizeSum_cons, sizeSum_nil, Nat.add_zero]
    exact hstep.follows
  · rw [hstep.layouts, h.layouts]
    simp [layoutsFrom_append, layoutsFrom]
  · rw [hstep.declared, h.declared, hlabels, List.map_append]
  · intro t ht
    rcases List.mem_append.mp ht with ht | ht
    · exact h.encodable t ht
    · rw [List.mem_singleton.mp ht]
      exact isEncodable_of_emit hs hemit
  · rw [hdata, h.data, List.flatMap_append, List.flatMap_singleton]

/-- What one more statement keeps holds behind statements one after the other. -/
theorem emitAll_induction {P : List Statement → Run → Prop}
    (hstep : ∀ {done s r r'}, P done r → s.isSimple = true → emit s r = .ok r' →
      r'.code.size < 2 ^ 32 → P (done ++ [s]) r')
    {done ss : List Statement} {r r' : Run} (h : P done r) (hs : ∀ s ∈ ss, s.isSimple = true)
    (hemit : emitAll ss r = .ok r') (hsize : r'.code.size < 2 ^ 32) : P (done ++ ss) r' := by
  induction ss generalizing done r with
  | nil =>
    cases hemit
    rwa [List.append_nil]
  | cons s rest ih =>
    have hrest : ∀ t ∈ rest, t.isSimple = true := fun t ht => hs t (List.mem_cons_of_mem s ht)
    obtain ⟨r₁, hone, hemit⟩ := emitAll_cons_eq_ok_iff.mp hemit
    have hgrown := size_emitAll hrest hemit
    have hnext := hstep h (hs s List.mem_cons_self) hone (by omega)
    have hall := ih hnext hrest hemit
    rwa [List.append_assoc, List.singleton_append] at hall

theorem Charted.run {done ss : List Statement} {r r' : Run} (h : Charted done r)
    (hs : ∀ s ∈ ss, s.isSimple = true) (hemit : emitAll ss r = .ok r')
    (hsize : r'.code.size < 2 ^ 32) : Charted (done ++ ss) r' :=
  emitAll_induction Charted.step h hs hemit hsize

/-! ## 5. The states of a run -/

/-- The states that a run goes through while it places a statement, with the
statements that it has placed since it started on it.  A repetition goes through
the states of its copies. -/
inductive Passes : Statement → Run → List Statement → Run → Prop where
  | start (s : Statement) (r : Run) : Passes s r [] r
  | patched (name : String) (pos : Position) (r : Run) : Passes (.label name pos) r [] r.patch
  | closed (name : String) (pos : Position) (r : Run) :
    Passes (.label name pos) r [] r.patch.closeRegion
  | placed {s : Statement} {r r' : Run} (hs : s.isSimple = true) (h : emit s r = .ok r') :
    Passes s r [s] r'
  | refused {s : Statement} {r r' : Run} {f : Fault} (hs : s.isSimple = true)
    (h : emit s r = .error (f, r')) : Passes s r [] r'
  | repeated {count : UInt32} {body : Statement} {pos : Position} {r r₁ r' : Run} {k : Nat}
    {done : List Statement} (hk : k < count.toNat) (h : repeatedly (emit body) k r = .ok r₁)
    (hbody : Passes body r₁ done r') :
    Passes (.times count body pos) r ((List.replicate k body.unrolled).flatten ++ done) r'

/-- The states that a run over a program goes through, with the statements that it
has placed. -/
inductive Reaches (program : List Statement) : List Statement → Run → Prop where
  | placing {before after done : List Statement} {s : Statement} {r r' : Run}
    (hprogram : program = before ++ s :: after) (h : emitAll before {} = .ok r)
    (hs : Passes s r done r') : Reaches program (unroll before ++ done) r'
  | placed {r : Run} (h : emitAll program {} = .ok r) : Reaches program (unroll program) r
  | finished {r : Run} (h : emitAll program {} = .ok r) : Reaches program (unroll program) r.finish

/-- While a statement is placed, the run is behind some of its copies, but for
gaps. -/
theorem Passes.behind {s : Statement} {r r' : Run} {done : List Statement}
    (h : Passes s r done r') :
    done <+: s.unrolled ∧ ∃ r₁, emitAll done r = .ok r₁ ∧ Fills r₁ r' := by
  induction h with
  | start s r => exact ⟨⟨_, List.nil_append _⟩, r, rfl, .of_code_eq rfl rfl rfl rfl⟩
  | patched name pos r => exact ⟨⟨_, List.nil_append _⟩, r, rfl, r.fills_patch⟩
  | closed name pos r => exact ⟨⟨_, List.nil_append _⟩, r, rfl, r.fills_closeRegion⟩
  | @placed s r r' hs h =>
    refine ⟨?_, r', (emitAll_singleton s r).trans h, .of_code_eq rfl rfl rfl rfl⟩
    cases s with
    | times count body pos => cases hs
    | _ => exact List.prefix_refl _
  | @refused s r r' f hs h => exact ⟨⟨_, List.nil_append _⟩, r, rfl, fills_of_emit_error hs h⟩
  | @repeated count body pos r r₁ r' k done hk h hbody ih =>
    obtain ⟨hfront, r₂, hrun, hfills⟩ := ih
    refine ⟨?_, r₂, ?_, hfills⟩
    · obtain ⟨m, hm⟩ := Nat.exists_eq_add_of_lt hk
      rw [Statement.unrolled, hm, Nat.add_assoc, List.replicate_add, List.flatten_append,
        List.replicate_succ, List.flatten_cons]
      exact (List.prefix_append_right_inj _).mpr (hfront.trans (List.prefix_append _ _))
    · rw [emitAll_append, ← repeatedly_eq_emitAll body.unrolled (emit body)
        (emit_eq_emitAll_unrolled body), h]
      exact hrun

theorem fills_finish (r : Run) : Fills r r.finish := by
  obtain ⟨hlayouts, hdeclared, -, hcode⟩ := r.fills_patch
  exact ⟨hlayouts, hdeclared, List.nil_subset _, hcode⟩

/-- In every state the run is behind some statements of the program, but for
gaps. -/
theorem Reaches.behind {program done : List Statement} {r : Run} (h : Reaches program done r) :
    done <+: unroll program ∧ ∃ r₁, emitAll done {} = .ok r₁ ∧ Fills r₁ r := by
  cases h with
  | @placing before after done s r r' hprogram h hs =>
    obtain ⟨hfront, r₁, hrun, hfills⟩ := hs.behind
    refine ⟨?_, r₁, ?_, hfills⟩
    · rw [hprogram, unroll, unroll, List.flatMap_append, List.flatMap_cons]
      exact (List.prefix_append_right_inj _).mpr (hfront.trans (List.prefix_append _ _))
    · rw [emitAll_append, emitAll_unroll, h]
      exact hrun
  | placed h =>
    exact ⟨List.prefix_refl _, r, (emitAll_unroll program {}).trans h, .of_code_eq rfl rfl rfl rfl⟩
  | @finished r h =>
    exact ⟨List.prefix_refl _, r, (emitAll_unroll program {}).trans h, r.fills_finish⟩

theorem exists_of_emitAll_error {program : List Statement} {r r' : Run} {f : Fault}
    (h : emitAll program r = .error (f, r')) :
    ∃ before s after r₁, program = before ++ s :: after ∧ emitAll before r = .ok r₁ ∧
      emit s r₁ = .error (f, r') := by
  induction program generalizing r with
  | nil => cases h
  | cons s rest ih =>
    rw [emitAll] at h
    cases hone : emit s r with
    | error e =>
      rw [hone] at h
      exact ⟨[], s, rest, r, rfl, rfl, hone.trans h⟩
    | ok r₁ =>
      rw [hone] at h
      obtain ⟨before, t, after, r₂, rfl, hbefore, ht⟩ := ih h
      exact ⟨s :: before, t, after, r₂, rfl, emitAll_cons_eq_ok_iff.mpr ⟨r₁, hone, hbefore⟩, ht⟩

theorem exists_of_repeatedly_error {f : Run → Except (Fault × Run) Run} {n : Nat} {r : Run}
    {e : Fault × Run} (h : repeatedly f n r = .error e) :
    ∃ k r₁, k < n ∧ repeatedly f k r = .ok r₁ ∧ f r₁ = .error e := by
  induction n generalizing r with
  | zero => cases h
  | succ n ih =>
    rw [repeatedly] at h
    cases hone : f r with
    | error e' =>
      rw [hone] at h
      exact ⟨0, r, Nat.succ_pos n, rfl, hone.trans h⟩
    | ok r₁ =>
      rw [hone] at h
      obtain ⟨k, r₂, hk, hrun, hlast⟩ := ih h
      refine ⟨k + 1, r₂, Nat.succ_lt_succ hk, ?_, hlast⟩
      rw [repeatedly, hone]
      exact hrun

/-- The state in which a statement is refused is one of its states. -/
theorem Passes.of_error {s : Statement} {r r' : Run} {f : Fault}
    (h : emit s r = .error (f, r')) : ∃ done, Passes s r done r' := by
  induction s generalizing r with
  | times count body pos ih =>
    rw [emit] at h
    obtain ⟨k, r₁, hk, hrun, hlast⟩ := exists_of_repeatedly_error h
    obtain ⟨done, hbody⟩ := ih hlast
    exact ⟨_, .repeated hk hrun hbody⟩
  | _ => exact ⟨[], .refused rfl h⟩

/-- How the bytes, the places of the instructions and the labels of a run lie, once
some statements have been placed. -/
structure Geometry (done : List Statement) (r : Run) : Prop where
  /-- The places are in order of their offsets, -/
  increasing : r.layouts.toList.Pairwise (·.offset < ·.offset)
  /-- no two of them cover the same byte, -/
  disjoint : r.layouts.toList.Pairwise fun l l' => ∀ i, ¬ (l.Covers i ∧ l'.Covers i)
  /-- and all of them lie inside the image so far. -/
  inside : ∀ l ∈ r.layouts.toList, l.offset.toNat + l.length ≤ (r.code.size : Int)
  /-- There is one place for each instruction, and its length is that of the
  instruction's parts. -/
  lengths : List.Forall₂ Layout.Fits r.layouts.toList (done.filter (·.isInstruction))
  /-- The labels are in order of their addresses, -/
  ascending : r.declared.toList.Pairwise (·.address ≤ ·.address)
  /-- none lies behind the end of the image, -/
  reached : ∀ s ∈ r.declared.toList, s.address ≤ r.offset
  /-- and none lies inside an instruction. -/
  outside : ∀ s ∈ r.declared.toList, ∀ l ∈ r.layouts.toList,
    ¬ (l.offset < s.address ∧ l.Covers s.address.toNat)
  /-- The bytes that no instruction covers are those of the data. -/
  data : uncoveredFrom r.layouts.toList 0 r.code.toList = done.flatMap Statement.dataWritten

theorem Charted.geometry {done : List Statement} {r : Run} (h : Charted done r)
    (hsize : r.code.size < 2 ^ 32) : Geometry done r := by
  have hsum := h.follows.size
  have hbound : 0 + sizeSum done < 2 ^ 32 := by omega
  have hapart := apart_layoutsFrom hbound
  have hextent : ∀ l ∈ layoutsFrom 0 done, _ := fun l hl => extent_of_mem_layoutsFrom hl hbound
  have haddress : ∀ d ∈ declarationsFrom 0 done, d.symbol.address.toNat = d.address := by
    intro d hd
    have hle := (address_of_mem_declarationsFrom hd).2
    have hlt : d.address < 2 ^ 32 := by omega
    exact UInt32.toNat_ofNat_of_lt' hlt
  have hoffset : r.offset.toNat = r.code.size := UInt32.toNat_ofNat_of_lt' hsize
  refine ⟨?_, ?_, ?_, ?_, ?_, ?_, ?_, h.data⟩
  · rw [h.layouts]
    refine hapart.imp_of_mem fun {l l'} hl _ hle => ?_
    have hpos := (hextent l hl).2.1
    rw [UInt32.lt_iff_toNat_lt]
    omega
  · rw [h.layouts]
    refine hapart.imp fun {l l'} hle i => ?_
    rintro ⟨⟨-, hhigh⟩, hlow, -⟩
    omega
  · intro l hl
    rw [h.layouts] at hl
    have hstop := (hextent l hl).2.2
    omega
  · rw [h.layouts]
    exact fits_layoutsFrom h.encodable 0
  · rw [h.declared, List.pairwise_map]
    refine (pairwise_declarationsFrom 0 done).imp_of_mem fun {d d'} hd hd' hle => ?_
    rw [UInt32.le_iff_toNat_le, haddress d hd, haddress d' hd']
    exact hle
  · intro s hs
    rw [h.declared] at hs
    obtain ⟨d, hd, rfl⟩ := List.mem_map.mp hs
    have hle := (address_of_mem_declarationsFrom hd).2
    rw [UInt32.le_iff_toNat_le, haddress d hd, hoffset]
    omega
  · intro s hs l hl
    rw [h.declared] at hs
    rw [h.layouts] at hl
    obtain ⟨d, hd, rfl⟩ := List.mem_map.mp hs
    rintro ⟨hlow, -, hhigh⟩
    have houtside := label_outside_layout hd hl hbound
    rw [UInt32.lt_iff_toNat_lt, haddress d hd] at hlow
    rw [haddress d hd] at hhigh
    omega

/-- Filling gaps keeps the geometry. -/
theorem Geometry.fills {done : List Statement} {r r' : Run} (h : Geometry done r)
    (hfills : Fills r r') (hgaps : r.GapsCovered) : Geometry done r' := by
  have hsize := hfills.size
  have hbytes := (hfills.uncovered hgaps).2
  obtain ⟨increasing, disjoint, inside, lengths, ascending, reached, outside, data⟩ := h
  rw [← hfills.layouts] at increasing disjoint inside lengths outside
  rw [← hfills.declared] at ascending reached outside
  rw [← hsize] at inside
  have hoffset : r'.offset = r.offset := by rw [Run.offset, Run.offset, hsize]
  rw [← hoffset] at reached
  exact ⟨increasing, disjoint, inside, lengths, ascending, reached, outside, hbytes.trans data⟩

end Run

/-- In every state that a run over a program goes through, whether the program has
an image or not, bytes, instructions and labels fit together.  The last state of
a run is among these states. -/
theorem geometry_of_reaches (program : List Statement) :
    (∀ done r, Run.Reaches program done r → r.code.size < 2 ^ 32 →
      done <+: unroll program ∧ Run.Geometry done r) ∧
    ∃ done r, Run.Reaches program done r ∧
      (assembleProgram program).2.layouts = r.layouts ∧
      (assembleProgram program).2.declared = r.declared ∧
      ∀ image, (assembleProgram program).1 = .ok image → image = r.code := by
  refine ⟨?_, ?_⟩
  · intro done r h hsize
    obtain ⟨hfront, r₁, hrun, hfills⟩ := h.behind
    have hsimple : ∀ s ∈ done, s.isSimple = true :=
      fun s hs => isSimple_of_mem_unroll (hfront.subset hs)
    rw [hfills.size] at hsize
    have hcharted := Run.charted_start.run hsimple hrun hsize
    exact ⟨hfront, (hcharted.geometry hsize).fills hfills hcharted.gaps⟩
  · cases hrun : Run.emitAll program {} with
    | error e =>
      obtain ⟨f, r⟩ := e
      obtain ⟨before, s, after, r₁, hprogram, hbefore, hs⟩ := Run.exists_of_emitAll_error hrun
      obtain ⟨done, hpasses⟩ := Run.Passes.of_error hs
      refine ⟨_, r, .placing hprogram hbefore hpasses, ?_⟩
      rw [assembleProgram_eq, hrun]
      exact ⟨rfl, rfl, by rintro image ⟨⟩⟩
    | ok r =>
      refine ⟨_, r.finish, .finished hrun, ?_⟩
      rw [assembleProgram_of_emitAll hrun]
      split
      · refine ⟨rfl, rfl, fun image h => ?_⟩
        cases h
        rfl
      · exact ⟨rfl, rfl, by rintro image ⟨⟩⟩

/-- Repeated jumps to a label that is declared behind them, data, a local label, and
a global label that repeats, so that the program has no image. -/
def repeatedLabel : List Statement :=
  [.label "f" .nowhere,
    .times 2 (.times 2 (.instruction (.op .jmp) [⟨.name "g", .nowhere⟩] .nowhere) .nowhere)
      .nowhere,
    .data [⟨.text "ab", .nowhere⟩, ⟨.immediate 7, .nowhere⟩] .nowhere,
    .localLabel ".a" .nowhere,
    .label "g" .nowhere,
    .instruction (.op .hlt) [] .nowhere,
    .label "f" .nowhere]

theorem geometry_of_reaches_repeatedLabel :
    ∃ done r, Run.Reaches repeatedLabel done r ∧ r.code.size = 28 ∧
      (assembleProgram repeatedLabel).1.isOk = false ∧ Run.Geometry done r := by
  have hfails : (Run.emitAll repeatedLabel {}).isOk = false := by decide +kernel
  have hsize : ∃ r ∈ ((Run.emitAll repeatedLabel {}).tryCatch fun e => .ok e.2).toOption,
      r.code.size = 28 := by decide +kernel
  cases hrun : Run.emitAll repeatedLabel {} with
  | ok r => rw [hrun] at hfails; cases hfails
  | error e =>
    obtain ⟨f, r⟩ := e
    rw [hrun] at hsize
    obtain ⟨_, ⟨⟩, hsize⟩ := hsize
    obtain ⟨before, s, after, r₁, hprogram, hbefore, hs⟩ := Run.exists_of_emitAll_error hrun
    obtain ⟨done, hpasses⟩ := Run.Passes.of_error hs
    have hreaches := Run.Reaches.placing hprogram hbefore hpasses
    have hgeometry := (geometry_of_reaches repeatedLabel).1 _ r hreaches (by rw [hsize]; decide)
    refine ⟨_, r, hreaches, hsize, ?_, hgeometry.2⟩
    rw [assembleProgram_eq, hrun]
    rfl

end RegAsm
