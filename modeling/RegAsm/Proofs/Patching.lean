/-
RegAsm.Proofs.Patching — bytes that are left open and filled later.

A run leaves four zero bytes for a name that is not visible yet and comes back
to them.  `imageWith?` is the image that a run will have come to once the names
that wait stand for what `later` says; the run does not know `later` yet, but
each of its steps can be said in terms of it.  Patching fills some of the gaps
earlier than others, which makes no difference as gaps do not overlap.

1. Four bytes at an index.
2. Gaps: filling those that can be filled, and filling all.
3. What a run's operations do to the image it will come to.
-/
import RegAsm.Proofs.Placement

namespace RegAsm

open Machine
open Source (Position)

/-! ## 1. Bytes at an index -/

/-- Bytes with others written over them from an index on. -/
def overwrite (bytes : List UInt8) (i : Nat) : List UInt8 → List UInt8
  | [] => bytes
  | b :: rest => overwrite (bytes.set i b) (i + 1) rest

theorem toList_patchCode (code : Image) (offset v : UInt32) :
    (Run.patchCode code offset v).toList = overwrite code.toList offset.toNat (fourBytes v) := by
  simp only [Run.patchCode, Array.toList_setIfInBounds, fourBytes, overwrite]

@[simp]
theorem length_overwrite (bytes : List UInt8) (i : Nat) (new : List UInt8) :
    (overwrite bytes i new).length = bytes.length := by
  induction new generalizing bytes i with
  | nil => rfl
  | cons b rest ih => rw [overwrite, ih, List.length_set]

theorem overwrite_append {xs : List UInt8} (ys : List UInt8) {i : Nat} (new : List UInt8)
    (h : i + new.length ≤ xs.length) : overwrite (xs ++ ys) i new = overwrite xs i new ++ ys := by
  induction new generalizing xs i with
  | nil => rfl
  | cons b rest ih =>
    rw [List.length_cons] at h
    rw [overwrite, List.set_append_left _ _ (by omega), ih (by rw [List.length_set]; omega),
      overwrite]

/-- What is written over the end of some bytes takes its place. -/
theorem overwrite_end (xs old new : List UInt8) (h : old.length = new.length) :
    overwrite (xs ++ old) xs.length new = xs ++ new := by
  induction new generalizing xs old with
  | nil => rw [List.eq_nil_of_length_eq_zero h, overwrite]
  | cons b rest ih =>
    obtain ⟨c, old, rfl⟩ := List.exists_cons_of_length_eq_add_one h
    have hset : (xs ++ c :: old).set xs.length b = (xs ++ [b]) ++ old := by simp
    have hlen : xs.length + 1 = (xs ++ [b]).length := by simp
    rw [overwrite, hset, hlen, ih _ _ (by simpa using h)]
    simp

theorem set_overwrite (bytes : List UInt8) {i j : Nat} (b : UInt8) (new : List UInt8)
    (h : i < j) : (overwrite bytes j new).set i b = overwrite (bytes.set i b) j new := by
  induction new generalizing bytes j with
  | nil => rfl
  | cons c rest ih =>
    rw [overwrite, ih _ (by omega), List.set_comm _ _ (by omega), overwrite]

/-- Writes to places that do not overlap can change their order. -/
theorem overwrite_comm (bytes : List UInt8) {i j : Nat} (new other : List UInt8)
    (h : i + new.length ≤ j) :
    overwrite (overwrite bytes j other) i new = overwrite (overwrite bytes i new) j other := by
  induction new generalizing bytes i with
  | nil => rfl
  | cons b rest ih =>
    rw [List.length_cons] at h
    rw [overwrite, set_overwrite _ _ _ (by omega), ih _ (by omega), overwrite]

/-! ## 2. Gaps -/

/-- The gaps of some references lie one behind the other below a limit. -/
structure Apart (refs : List Reference) (limit : Nat) : Prop where
  ordered : refs.Pairwise fun a b => a.offset.toNat + 4 ≤ b.offset.toNat
  below : ∀ ref ∈ refs, ref.offset.toNat + 4 ≤ limit

/-- Fills the gaps of the references whose names stand for something. -/
def fillSome (now : String → Option UInt32) : List Reference → List UInt8 → List UInt8
  | [], bytes => bytes
  | ref :: rest, bytes =>
    fillSome now rest <|
      match now ref.label with
      | some a => overwrite bytes ref.offset.toNat (fourBytes a)
      | none => bytes

/-- Fills all gaps, if all names stand for something. -/
def fillAll? (later : String → Option UInt32) : List Reference → List UInt8 → Option (List UInt8)
  | [], bytes => some bytes
  | ref :: rest, bytes =>
    (later ref.label).bind fun a =>
      fillAll? later rest (overwrite bytes ref.offset.toNat (fourBytes a))

theorem Apart.tail {ref : Reference} {rest : List Reference} {limit : Nat}
    (h : Apart (ref :: rest) limit) : Apart rest limit :=
  ⟨(List.pairwise_cons.mp h.ordered).2, fun r hr => h.below r (List.mem_cons_of_mem ref hr)⟩

theorem Apart.mono {refs : List Reference} {limit limit' : Nat} (h : Apart refs limit)
    (hl : limit ≤ limit') : Apart refs limit' :=
  ⟨h.ordered, fun r hr => Nat.le_trans (h.below r hr) hl⟩

theorem Apart.filter {refs : List Reference} {limit : Nat} (h : Apart refs limit)
    (p : Reference → Bool) : Apart (refs.filter p) limit :=
  ⟨h.ordered.filter p, fun r hr => h.below r (List.mem_filter.mp hr).1⟩

/-- A gap behind all others. -/
theorem Apart.concat {refs : List Reference} {limit : Nat} (h : Apart refs limit)
    (ref : Reference) (hr : ref.offset.toNat = limit) : Apart (refs ++ [ref]) (limit + 4) := by
  refine ⟨List.pairwise_append.mpr ⟨h.ordered, List.pairwise_singleton _ _, ?_⟩, ?_⟩
  · intro a ha b hb
    rw [List.mem_singleton.mp hb, hr]
    exact h.below a ha
  · intro a ha
    rcases List.mem_append.mp ha with ha | ha
    · exact Nat.le_trans (h.below a ha) (Nat.le_add_right limit 4)
    · exact Nat.le_of_eq (by rw [List.mem_singleton.mp ha, hr])

theorem length_fillSome (now : String → Option UInt32) (refs : List Reference)
    (bytes : List UInt8) : (fillSome now refs bytes).length = bytes.length := by
  induction refs generalizing bytes with
  | nil => rfl
  | cons ref rest ih =>
    rw [fillSome, ih]
    split
    · exact length_overwrite _ _ _
    · rfl

theorem length_of_fillAll? {later : String → Option UInt32} {refs : List Reference}
    {bytes filled : List UInt8} (h : fillAll? later refs bytes = some filled) :
    filled.length = bytes.length := by
  induction refs generalizing bytes with
  | nil => cases h; rfl
  | cons ref rest ih =>
    obtain ⟨a, -, h⟩ := Option.bind_eq_some_iff.mp h
    rw [ih h, length_overwrite]

/-- Bytes behind all gaps play no part. -/
theorem fillAll?_append (later : String → Option UInt32) {refs : List Reference}
    {bytes : List UInt8} (h : Apart refs bytes.length) (more : List UInt8) :
    fillAll? later refs (bytes ++ more) = joined? (fillAll? later refs bytes) (some more) := by
  induction refs generalizing bytes with
  | nil => rfl
  | cons ref rest ih =>
    have hbelow := h.below ref List.mem_cons_self
    rw [fillAll?, fillAll?]
    cases later ref.label with
    | none => rfl
    | some a =>
      have hcut : overwrite (bytes ++ more) ref.offset.toNat (fourBytes a) =
          overwrite bytes ref.offset.toNat (fourBytes a) ++ more :=
        overwrite_append more (fourBytes a) hbelow
      rw [Option.bind_some, hcut, ih (by rw [length_overwrite]; exact h.tail)]
      rfl

theorem fillAll?_concat (later : String → Option UInt32) (refs : List Reference) (ref : Reference)
    (bytes : List UInt8) :
    fillAll? later (refs ++ [ref]) bytes =
      (fillAll? later refs bytes).bind fun filled =>
        (later ref.label).map fun a => overwrite filled ref.offset.toNat (fourBytes a) := by
  induction refs generalizing bytes with
  | nil => simp only [List.nil_append, fillAll?, Option.bind_some]; cases later ref.label <;> rfl
  | cons r rest ih =>
    rw [List.cons_append, fillAll?, fillAll?]
    cases later r.label with
    | none => rfl
    | some a => exact ih _

/-- A gap in front of all others can be filled first or last. -/
theorem overwrite_fillSome (now : String → Option UInt32) {refs : List Reference}
    (bytes : List UInt8) {i : Nat} (new : List UInt8)
    (h : ∀ ref ∈ refs, i + new.length ≤ ref.offset.toNat) :
    overwrite (fillSome now refs bytes) i new = fillSome now refs (overwrite bytes i new) := by
  induction refs generalizing bytes with
  | nil => rfl
  | cons ref rest ih =>
    rw [fillSome, fillSome, ih _ fun r hr => h r (List.mem_cons_of_mem ref hr)]
    cases now ref.label with
    | none => rfl
    | some a =>
      simp only
      rw [overwrite_comm _ _ _ (h ref List.mem_cons_self)]

/-- Filling in two rounds.  In the first round names stand for what `now` says;
those for which it says nothing go to the second round, unless they are given
up. -/
theorem fillAll?_two_rounds (now later : String → Option UInt32) (givenUp : String → Bool)
    {refs : List Reference} {limit : Nat} (h : Apart refs limit) (bytes : List UInt8) :
    (if ((refs.filter fun ref => (now ref.label).isNone).filter (givenUp ·.label)).isEmpty then
      fillAll? later ((refs.filter fun ref => (now ref.label).isNone).filter (!givenUp ·.label))
        (fillSome now refs bytes)
    else none) =
      fillAll? (fun name => (now name).or (if givenUp name then none else later name)) refs
        bytes := by
  induction refs generalizing bytes with
  | nil => rfl
  | cons ref rest ih =>
    rw [fillSome, fillAll?]
    cases hnow : now ref.label with
    | some a => simpa [hnow] using ih h.tail _
    | none =>
      cases hup : givenUp ref.label with
      | true => simp [hnow, hup]
      | false =>
        cases hlater : later ref.label with
        | none => simp [hnow, hup, hlater, fillAll?]
        | some a =>
          -- The gap is filled in the second round, after those behind it; it could have been
          -- filled before them.
          have hfirst : overwrite (fillSome now rest bytes) ref.offset.toNat (fourBytes a) =
              fillSome now rest (overwrite bytes ref.offset.toNat (fourBytes a)) :=
            overwrite_fillSome now bytes (fourBytes a) (List.pairwise_cons.mp h.ordered).1
          simp only [List.filter_cons, hnow, Option.isNone_none, hup, if_true, Bool.false_eq_true,
            if_false, Bool.not_false, fillAll?, hlater, Option.bind_some, Option.none_or]
          rw [hfirst]
          exact ih h.tail _

/-! ## 3. Runs -/

theorem size_appendList (code : Image) (bytes : List UInt8) :
    (code ++ bytes).size = code.size + bytes.length := by
  rw [← Array.length_toList, Array.toList_appendList, List.length_append, Array.length_toList]

namespace Run

/-- The image of a run, if no reference has been given up. -/
def image? (r : Run) : Option (List UInt8) :=
  if r.undefined.toList.isEmpty then some r.code.toList else none

/-- The image that a run will have come to, once the names that wait stand for
something. -/
def imageWith? (later : String → Option UInt32) (r : Run) : Option (List UInt8) :=
  r.image?.bind (fillAll? later r.pending.toList)

/-- The gaps of a run lie inside its image and do not overlap. -/
def Sound (r : Run) : Prop := Apart r.pending.toList r.code.size

theorem foldl_settle (refs : List Reference) (r : Run) :
    ∃ events, refs.foldl settle r =
      { r with
        code := (fillSome r.table.find? refs r.code.toList).toArray
        pending := r.pending ++ refs.filter fun ref => (r.table.find? ref.label).isNone
        events } := by
  induction refs generalizing r with
  | nil => exact ⟨r.events, by simp [fillSome]⟩
  | cons ref rest ih =>
    obtain ⟨events, h⟩ := ih (r.settle ref)
    refine ⟨events, ?_⟩
    rw [List.foldl_cons, h, settle]
    cases hfind : r.table.find? ref.label with
    | some a => simp [hfind, fillSome, toList_patchCode]
    | none => simp [hfind, fillSome]

theorem patch_eq (r : Run) :
    ∃ events, r.patch =
      { r with
        code := (fillSome r.table.find? r.pending.toList r.code.toList).toArray
        pending := (r.pending.toList.filter fun ref => (r.table.find? ref.label).isNone).toArray
        events } := by
  obtain ⟨events, h⟩ := foldl_settle r.pending.toList { r with pending := #[] }
  refine ⟨events, ?_⟩
  rw [patch, ← Array.foldl_toList, h]
  simp

/-- At a global label, names that wait stand for what is visible; of the others
the local ones are given up. -/
theorem imageWith?_closeRegion {r : Run} (h : r.Sound) (later : String → Option UInt32) :
    r.patch.closeRegion.imageWith? later =
      r.imageWith? fun name =>
        (r.table.find? name).or (if isLocalName name then none else later name) := by
  obtain ⟨events, hp⟩ := r.patch_eq
  rw [hp]
  simp only [imageWith?, image?, closeRegion, Array.toList_append, Array.toList_filter]
  cases r.undefined.toList with
  | cons ref rest => rfl
  | nil =>
    rw [List.isEmpty_nil, if_pos rfl, Option.bind_some, List.nil_append,
      ← fillAll?_two_rounds r.table.find? later isLocalName h]
    split <;> rfl

/-- At the end, names that wait stand for what is visible. -/
theorem image?_finish {r : Run} (h : r.Sound) : r.finish.image? = r.imageWith? r.table.find? := by
  obtain ⟨events, hp⟩ := r.patch_eq
  rw [finish, hp]
  simp only [imageWith?, image?, Array.toList_append]
  cases r.undefined.toList with
  | cons ref rest => rfl
  | nil =>
    have hround := fillAll?_two_rounds r.table.find? (fun _ => none) (fun _ => true) h
      r.code.toList
    simp only [if_true, Option.or_none, List.filter_eq_self.mpr (fun _ _ => rfl), Bool.not_true,
      List.filter_eq_nil_iff.mpr (fun _ _ => Bool.false_ne_true), fillAll?] at hround
    rw [List.isEmpty_nil, if_pos rfl, Option.bind_some, List.nil_append, ← hround]

theorem imageWith?_append {r : Run} (h : r.Sound) (later : String → Option UInt32)
    (bytes : List UInt8) :
    (r.append bytes).imageWith? later = joined? (r.imageWith? later) (some bytes) := by
  simp only [imageWith?, image?, append, Array.toList_appendList]
  cases r.undefined.toList.isEmpty with
  | false => rfl
  | true => exact fillAll?_append later h bytes

theorem sound_append {r : Run} (h : r.Sound) (bytes : List UInt8) : (r.append bytes).Sound := by
  refine Apart.mono h ?_
  rw [append, size_appendList]
  exact Nat.le_add_right _ _

/-- A name that is not visible leaves a gap. -/
theorem imageWith?_refer {r : Run} (h : r.Sound) (hsize : r.code.size < 2 ^ 32)
    (later : String → Option UInt32) (label : String) (pos : Position) :
    (r.refer label pos).imageWith? later =
      joined? (r.imageWith? later)
        (((r.table.find? label).or (later label)).map fourBytes) := by
  rw [refer]
  cases hfind : r.table.find? label with
  | some a => exact imageWith?_append h later (fourBytes a)
  | none =>
    simp only [imageWith?, image?, Array.toList_push, Array.toList_appendList, Option.none_or]
    cases r.undefined.toList.isEmpty with
    | false => rfl
    | true =>
      simp only [if_true, Option.bind_some]
      rw [fillAll?_concat, fillAll?_append later h (fourBytes 0)]
      cases hfill : fillAll? later r.pending.toList r.code.toList with
      | none => rfl
      | some filled =>
        have hlen : filled.length = r.code.size := length_of_fillAll? hfill
        have hoff : r.offset.toNat = filled.length := by
          rw [offset, hlen, UInt32.toNat_ofNat_of_lt' hsize]
        cases later label with
        | none => rfl
        | some a =>
          simp only [some_joined?_some, Option.map_some, Option.bind_some]
          rw [hoff, overwrite_end filled (fourBytes 0) (fourBytes a) rfl]

theorem sound_refer {r : Run} (h : r.Sound) (hsize : r.code.size < 2 ^ 32) (label : String)
    (pos : Position) : (r.refer label pos).Sound := by
  rw [refer]
  split
  · exact sound_append h _
  · rw [Sound, Array.toList_push, size_appendList]
    exact Apart.concat h ⟨label, r.offset, pos⟩ (UInt32.toNat_ofNat_of_lt' hsize)

/-- What the writing of fields leaves as it is. -/
structure SameBooks (r r' : Run) : Prop where
  table : r'.table = r.table
  layouts : r'.layouts = r.layouts
  declared : r'.declared = r.declared

theorem sameBooks_writeField (r : Run) (f : Field) : SameBooks r (r.writeField f) := by
  cases f with
  | address label pos =>
    rw [writeField, refer]
    split <;> exact ⟨rfl, rfl, rfl⟩
  | _ => exact ⟨rfl, rfl, rfl⟩

theorem sameBooks_writeFields (fields : List Field) (r : Run) :
    SameBooks r (fields.foldl writeField r) := by
  induction fields generalizing r with
  | nil => exact ⟨rfl, rfl, rfl⟩
  | cons f rest ih =>
    have hfirst := r.sameBooks_writeField f
    have hrest := ih (r.writeField f)
    exact ⟨hrest.table.trans hfirst.table, hrest.layouts.trans hfirst.layouts,
      hrest.declared.trans hfirst.declared⟩

/-- An instruction that is emitted has an encoding.  Its fields are written
behind its head, and its place is kept. -/
theorem exists_encoding_of_emit {m : Mnemonic} {operands : List Operand} {pos : Position}
    {r r' : Run} (h : emit (.instruction m operands pos) r = .ok r') :
    ∃ e events, Encoding.of m operands = .ok e ∧
      r' = { e.fields.foldl writeField (r.append e.head) with
        layouts := r.layouts.push (e.layout r.code.size), events } := by
  obtain ⟨e, he, rfl⟩ := emit_instruction_eq_ok_iff.mp h
  have hlayouts := (sameBooks_writeFields e.fields (r.append e.head)).layouts
  rw [writeEncoding, hlayouts]
  cases e.mode with
  | none => exact ⟨e, _, he, rfl⟩
  | some mode => exact ⟨e, _, he, rfl⟩

theorem size_writeField (r : Run) (f : Field) :
    (r.writeField f).code.size = r.code.size + f.width := by
  cases f with
  | byte b => rw [writeField, append, size_appendList]; rfl
  | value v size => rw [writeField, append, size_appendList, length_valueBytes]; rfl
  | address label pos =>
    rw [writeField, refer]
    split
    · rw [append, size_appendList]; rfl
    · rw [size_appendList]; rfl

theorem size_writeFields (fields : List Field) (r : Run) :
    (fields.foldl writeField r).code.size = r.code.size + (fields.map Field.width).sum := by
  induction fields generalizing r with
  | nil => simp
  | cons f rest ih =>
    rw [List.foldl_cons, ih, size_writeField, List.map_cons, List.sum_cons, Nat.add_assoc]

theorem sound_writeField {r : Run} (h : r.Sound) (hsize : r.code.size < 2 ^ 32) (f : Field) :
    (r.writeField f).Sound := by
  cases f with
  | address label pos => exact sound_refer h hsize label pos
  | _ => exact sound_append h _

theorem imageWith?_writeField {r : Run} (h : r.Sound) (hsize : r.code.size < 2 ^ 32)
    (later : String → Option UInt32) (f : Field) :
    (r.writeField f).imageWith? later =
      joined? (r.imageWith? later)
        (f.bytes? fun name => (r.table.find? name).or (later name)) := by
  cases f with
  | address label pos => exact imageWith?_refer h hsize later label pos
  | _ => exact imageWith?_append h later _

/-- Writing all fields of an instruction. -/
theorem writeFields_spec (fields : List Field) {r : Run} (h : r.Sound)
    (hsize : r.code.size + (fields.map Field.width).sum < 2 ^ 32)
    (later : String → Option UInt32) :
    (fields.foldl writeField r).Sound ∧
    (fields.foldl writeField r).imageWith? later =
      joined? (r.imageWith? later)
        (fieldBytes? (fun name => (r.table.find? name).or (later name)) fields) := by
  induction fields generalizing r with
  | nil =>
    exact ⟨h, (joined?_nil _).symm⟩
  | cons f rest ih =>
    rw [List.map_cons, List.sum_cons] at hsize
    have hnow : r.code.size < 2 ^ 32 := by omega
    have hbooks := r.sameBooks_writeField f
    obtain ⟨hs, hi⟩ := ih (sound_writeField h hnow f) (by rw [size_writeField]; omega)
    refine ⟨hs, ?_⟩
    rw [List.foldl_cons, hi, imageWith?_writeField h hnow, hbooks.table, fieldBytes?, joined?_assoc]

end Run

end RegAsm
