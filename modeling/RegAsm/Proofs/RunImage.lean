/-
RegAsm.Proofs.RunImage — a run in one pass gives the image of the deferred
rule.

`Follows` ties a run to the labels it has passed and the address it has
reached.  `Places` says all that placing one statement does: which labels and
places are added, and how the image that the run will come to goes on.  One
lemma for each kind of statement proves it, and an induction over the
statements carries it to whole runs (`emitAll_spec`).

1. Runs and the labels they have passed.
2. One statement.
3. Whole runs, and when they succeed.
4. Programs.
-/
import RegAsm.Proofs.Patching
import RegAsm.Proofs.Reset
import RegAsm.Proofs.Resolution

namespace RegAsm

open Machine
open Source (Position)

namespace Run

/-! ## 1. Labels passed -/

/-- A run has passed some labels and reached an address. -/
structure Follows (r : Run) (before : List Declaration) (address : Nat) : Prop where
  table : r.table = tableOf before
  size : r.code.size = address
  sound : r.Sound

/-- What the names that wait behind some labels come to stand for. -/
def settledAddress? (before after : List Declaration) (name : String) : Option UInt32 :=
  (settled? name before after).map UInt32.ofNat

/-- What placing a statement does to a run. -/
structure Places (s : Statement) (before : List Declaration) (address : Nat) (r r' : Run) :
    Prop where
  follows : r'.Follows (before ++ s.declarations address) (address + s.size)
  layouts : r'.layouts.toList = r.layouts.toList ++ s.layouts address
  declared : r'.declared.toList = r.declared.toList ++ (s.declarations address).map (·.symbol)
  image : ∀ after, r'.imageWith? (settledAddress? (before ++ s.declarations address) after) =
    joined? (r.imageWith? (settledAddress? before (s.declarations address ++ after)))
      (s.bytes? (deferredRule.address? before (s.declarations address ++ after)))

theorem follows_start : ({} : Run).Follows [] 0 :=
  ⟨rfl, rfl, ⟨List.Pairwise.nil, fun _ h => nomatch h⟩⟩

theorem Follows.offset {r : Run} {before : List Declaration} {address : Nat}
    (h : r.Follows before address) : r.offset = UInt32.ofNat address := by
  rw [Run.offset, h.size]

theorem Follows.find? {r : Run} {before : List Declaration} {address : Nat}
    (h : r.Follows before address) (name : String) :
    r.table.find? name = (visible? before name).map UInt32.ofNat := by
  rw [h.table, find?_tableOf]

/-- A name stands for what the table has, or else for what it comes to. -/
theorem Follows.deferred {r : Run} {before : List Declaration} {address : Nat}
    (h : r.Follows before address) (after : List Declaration) :
    (fun name => (r.table.find? name).or (settledAddress? before after name)) =
      deferredRule.address? before after := by
  funext name
  rw [h.find?, settledAddress?, NameRule.address?, deferredRule, Option.map_or]

/-! ## 2. One statement -/

theorem closeRegion_frame (r : Run) :
    r.patch.closeRegion.table = r.table ∧ r.patch.closeRegion.layouts = r.layouts ∧
      r.patch.closeRegion.declared = r.declared ∧
      r.patch.closeRegion.code.size = r.code.size := by
  obtain ⟨events, h⟩ := r.patch_eq
  rw [h]
  refine ⟨rfl, rfl, rfl, ?_⟩
  rw [closeRegion, List.size_toArray, length_fillSome, Array.length_toList]

theorem sound_closeRegion {r : Run} (h : r.Sound) : r.patch.closeRegion.Sound := by
  have hsize := (closeRegion_frame r).2.2.2
  obtain ⟨events, hp⟩ := r.patch_eq
  rw [Sound, hsize, hp]
  simp only [closeRegion, Array.toList_filter]
  exact (Apart.filter h _).filter _

/-- A global label closes the region, and must not repeat. -/
theorem emit_label_eq {r : Run} {before : List Declaration} {address : Nat}
    (hf : r.Follows before address) (name : String) (pos : Position) :
    ∃ fault events, emit (.label name pos) r =
      match globalNamed? name before with
      | some _ => .error fault
      | none =>
        .ok { r.patch.closeRegion with
          table := tableOf (before ++ [⟨true, name, address⟩])
          declared := r.declared.push ⟨name, UInt32.ofNat address⟩
          events } := by
  obtain ⟨htable, -, hdeclared, hsize⟩ := closeRegion_frame r
  have hoffset : ({ r.patch.closeRegion with
      table := r.patch.closeRegion.table.toGlobal } : Run).offset = UInt32.ofNat address := by
    rw [Run.offset, hsize, hf.size]
  rw [emit, declare, hoffset, htable, hf.table, declare_global]
  cases globalNamed? name before with
  | some a => exact ⟨_, #[], rfl⟩
  | none => exact ⟨(.duplicate pos (.notFound name), r), _, by rw [hdeclared]⟩

/-- A local label leaves the image as it is. -/
theorem emit_localLabel_eq {r : Run} {before : List Declaration} {address : Nat}
    (hf : r.Follows before address) (name : String) (pos : Position) :
    ∃ events, emit (.localLabel name pos) r =
      .ok { r with
        table := tableOf (before ++ [⟨false, name, address⟩])
        declared := r.declared.push ⟨name, UInt32.ofNat address⟩
        events } := by
  have hoffset : ({ r with table := r.table.pushNamed name } : Run).offset =
      UInt32.ofNat address := hf.offset
  rw [emit, declare, hoffset, hf.table, declare_local]
  exact ⟨_, rfl⟩

theorem emit_label {name : String} {pos : Position} {r r' : Run} {before : List Declaration}
    {address : Nat} (hf : r.Follows before address) (h : emit (.label name pos) r = .ok r') :
    Places (.label name pos) before address r r' := by
  obtain ⟨-, hlayouts, -, hsize⟩ := closeRegion_frame r
  obtain ⟨fault, events, heq⟩ := emit_label_eq hf name pos
  rw [heq] at h
  cases hn : globalNamed? name before with
  | some a => simp [hn] at h
  | none =>
    simp only [hn, Except.ok.injEq] at h
    subst h
    refine ⟨⟨rfl, hsize.trans hf.size, sound_closeRegion hf.sound⟩, ?_, ?_, fun after => ?_⟩
    · simp [Statement.layouts, hlayouts]
    · simp [Statement.declarations, Declaration.symbol]
    · have hlater := imageWith?_closeRegion hf.sound
        (settledAddress? (before ++ [⟨true, name, address⟩]) after)
      have hname : (fun n => (r.table.find? n).or (if isLocalName n then none else
          settledAddress? (before ++ [⟨true, name, address⟩]) after n)) =
          settledAddress? before (⟨true, name, address⟩ :: after) := by
        funext n
        rw [hf.find?, settledAddress?, settledAddress?, settled?, if_pos rfl, Option.map_or]
        split <;> rfl
      rw [hname] at hlater
      rw [Statement.bytes?, joined?_nil]
      exact hlater

theorem emit_localLabel {name : String} {pos : Position} {r r' : Run} {before : List Declaration}
    {address : Nat} (hf : r.Follows before address)
    (h : emit (.localLabel name pos) r = .ok r') :
    Places (.localLabel name pos) before address r r' := by
  obtain ⟨events, heq⟩ := emit_localLabel_eq hf name pos
  rw [heq, Except.ok.injEq] at h
  subst h
  refine ⟨⟨rfl, hf.size, hf.sound⟩, ?_, ?_, fun after => ?_⟩
  · simp [Statement.layouts]
  · simp [Statement.declarations, Declaration.symbol]
  · have hname : settledAddress? (before ++ [⟨false, name, address⟩]) after =
        settledAddress? before (⟨false, name, address⟩ :: after) := by
      funext n
      rw [settledAddress?, settledAddress?, settled?, if_neg Bool.false_ne_true]
    rw [Statement.bytes?, joined?_nil, Statement.declarations, hname]
    rfl

theorem emit_instruction {m : Mnemonic} {operands : List Operand} {pos : Position} {r r' : Run}
    {before : List Declaration} {address : Nat} (hf : r.Follows before address)
    (hsize : address + (Statement.instruction m operands pos).size < 2 ^ 32)
    (h : emit (.instruction m operands pos) r = .ok r') :
    Places (.instruction m operands pos) before address r r' := by
  obtain ⟨e, events, he, rfl⟩ := exists_encoding_of_emit h
  rw [Statement.size_instruction he] at hsize
  -- The head is written first; the fields follow it.
  have hsound := sound_append hf.sound e.head
  have hhead : (r.append e.head).code.size = address + e.head.length := by
    rw [append, size_appendList, hf.size]
  have hfields : (r.append e.head).code.size + (e.fields.map Field.width).sum < 2 ^ 32 := by
    rw [hhead]
    rw [Encoding.length_eq, Encoding.widths] at hsize
    omega
  have hbooks := sameBooks_writeFields e.fields (r.append e.head)
  have hspec := fun later => writeFields_spec e.fields hsound hfields later
  obtain ⟨hs, -⟩ := hspec fun _ => none
  refine ⟨⟨?_, ?_, hs⟩, ?_, ?_, fun after => ?_⟩
  · simp only [Statement.declarations, List.append_nil]
    exact hbooks.table.trans hf.table
  · rw [Statement.size_instruction he]
    exact (size_writeFields e.fields _).trans
      (by rw [hhead, Encoding.length_eq, Encoding.widths, Nat.add_assoc])
  · simp [Statement.layouts_instruction he, hf.size]
  · simp only [Statement.declarations, List.map_nil, List.append_nil]
    exact congrArg Array.toList hbooks.declared
  · have himage := (hspec (settledAddress? before after)).2
    rw [imageWith?_append hf.sound, joined?_assoc,
      show (r.append e.head).table = r.table from rfl, hf.deferred] at himage
    simp only [Statement.declarations, List.append_nil, List.nil_append, Statement.bytes?, he,
      Except.toOption, Option.bind_some]
    exact himage

theorem emit_data {items : List Operand} {pos : Position} {r r' : Run}
    {before : List Declaration} {address : Nat} (hf : r.Follows before address)
    (h : emit (.data items pos) r = .ok r') : Places (.data items pos) before address r r' := by
  obtain ⟨bytes, hb, rfl⟩ := emit_data_eq_ok_iff.mp h
  refine ⟨⟨?_, ?_, sound_append hf.sound bytes⟩, ?_, ?_, fun after => ?_⟩
  · simp only [Statement.declarations, List.append_nil]
    exact hf.table
  · rw [Statement.size_data hb, report, append, size_appendList, hf.size]
  · simp [Statement.layouts, report, append]
  · simp [Statement.declarations, report, append]
  · simp only [Statement.declarations, List.append_nil, List.nil_append,
      Statement.bytes?_data_eq_some_iff.mpr hb]
    exact imageWith?_append hf.sound _ bytes

/-- Placing a statement that repeats no other. -/
theorem emit_spec {s : Statement} {r r' : Run} {before : List Declaration} {address : Nat}
    (hs : s.isSimple = true) (hf : r.Follows before address) (hsize : address + s.size < 2 ^ 32)
    (h : emit s r = .ok r') : Places s before address r r' := by
  cases s with
  | label name pos => exact emit_label hf h
  | localLabel name pos => exact emit_localLabel hf h
  | instruction m operands pos => exact emit_instruction hf hsize h
  | data items pos => exact emit_data hf h
  | times count body pos => cases hs
  | bareTimes count pos => cases h
  | other tag m operands pos => cases h

/-! ## 3. Whole runs -/

/-- Placing statements that repeat no others. -/
theorem emitAll_spec {ss : List Statement} {r r' : Run} {before : List Declaration} {address : Nat}
    (hs : ∀ s ∈ ss, s.isSimple = true) (hf : r.Follows before address)
    (hsize : address + sizeSum ss < 2 ^ 32) (h : emitAll ss r = .ok r') :
    r'.Follows (before ++ declarationsFrom address ss) (address + sizeSum ss) ∧
    r'.layouts.toList = r.layouts.toList ++ layoutsFrom address ss ∧
    r'.declared.toList = r.declared.toList ++ (declarationsFrom address ss).map (·.symbol) ∧
    r'.finish.image? =
      joined? (r.imageWith? (settledAddress? before (declarationsFrom address ss)))
        (imageFrom? deferredRule before address ss) := by
  induction ss generalizing r before address with
  | nil =>
    simp only [emitAll, Except.ok.injEq] at h
    subst h
    have hnow : r.table.find? = settledAddress? before [] := by
      funext name
      rw [hf.find?, settledAddress?, settled?]
    refine ⟨by simpa [declarationsFrom] using hf, by simp [layoutsFrom],
      by simp [declarationsFrom], ?_⟩
    rw [imageFrom?, joined?_nil, image?_finish hf.sound, hnow, declarationsFrom]
  | cons s rest ih =>
    rw [sizeSum_cons] at hsize
    obtain ⟨r₁, hemit, h⟩ := emitAll_cons_eq_ok_iff.mp h
    have hstep := emit_spec (hs s List.mem_cons_self) hf (by omega) hemit
    obtain ⟨hfol, hlay, hdec, himg⟩ :=
      ih (fun t ht => hs t (List.mem_cons_of_mem s ht)) hstep.follows (by omega) h
    refine ⟨?_, ?_, ?_, ?_⟩
    · simpa [declarationsFrom, Nat.add_assoc] using hfol
    · rw [hlay, hstep.layouts, layoutsFrom, List.append_assoc]
    · rw [hdec, hstep.declared, declarationsFrom, List.map_append, List.append_assoc]
    · rw [himg, hstep.image, declarationsFrom, imageFrom?, joined?_assoc]

/-- The global names among some labels. -/
def globalNames (ds : List Declaration) : List String := (ds.filter (·.isGlobal)).map (·.name)

theorem globalNames_append (xs ys : List Declaration) :
    globalNames (xs ++ ys) = globalNames xs ++ globalNames ys := by
  simp [globalNames]

theorem globalNamed?_eq_none_iff (name : String) (ds : List Declaration) :
    globalNamed? name ds = none ↔ name ∉ globalNames ds := by
  simp only [globalNamed?, Option.map_eq_none_iff, List.find?_eq_none, globalNames, List.mem_map,
    List.mem_filter, not_exists, not_and, and_imp, Bool.and_eq_true, beq_iff_eq]

/-- A statement can be placed if it has a machine form and declares no global
name a second time. -/
theorem emit_isOk_iff {s : Statement} {r : Run} {before : List Declaration} {address : Nat}
    (hs : s.isSimple = true) (hf : r.Follows before address)
    (hb : (globalNames before).Nodup) :
    (∃ r', emit s r = .ok r') ↔
      s.isEncodable = true ∧ (globalNames (before ++ s.declarations address)).Nodup := by
  cases s with
  | label name pos =>
    obtain ⟨fault, events, heq⟩ := emit_label_eq hf name pos
    have hnodup : (globalNames (before ++ [⟨true, name, address⟩])).Nodup ↔
        globalNamed? name before = none := by
      rw [globalNamed?_eq_none_iff, globalNames_append, List.nodup_append]
      constructor
      · intro h hmem
        exact h.2.2 name hmem name (by simp [globalNames]) rfl
      · intro h
        refine ⟨hb, by simp [globalNames], ?_⟩
        intro a ha b hmem hab
        simp only [globalNames, List.filter_cons, if_true, List.filter_nil, List.map_cons,
          List.map_nil, List.mem_singleton] at hmem
        exact h (hmem ▸ hab ▸ ha)
    rw [heq]
    simp only [Statement.isEncodable, Statement.declarations, true_and, hnodup]
    cases globalNamed? name before <;> simp
  | localLabel name pos =>
    obtain ⟨events, heq⟩ := emit_localLabel_eq hf name pos
    rw [heq, globalNames_append]
    simp [Statement.isEncodable, Statement.declarations, globalNames] at hb ⊢
    exact hb
  | instruction m operands pos =>
    simp only [emit_instruction_eq_ok_iff, Statement.isEncodable_instruction_iff,
      Statement.declarations, List.append_nil, hb, and_true]
    rw [exists_comm]
    simp
  | data items pos =>
    simp only [emit_data_eq_ok_iff, Statement.isEncodable_data_iff, Statement.declarations,
      List.append_nil, hb, and_true]
    rw [exists_comm]
    simp
  | times count body pos => cases hs
  | bareTimes count pos => simp [emit, Statement.isEncodable]
  | other tag m operands pos => simp [emit, Statement.isEncodable]

theorem emitAll_isOk_iff {ss : List Statement} {r : Run} {before : List Declaration}
    {address : Nat} (hs : ∀ s ∈ ss, s.isSimple = true) (hf : r.Follows before address)
    (hsize : address + sizeSum ss < 2 ^ 32) (hb : (globalNames before).Nodup) :
    (∃ r', emitAll ss r = .ok r') ↔
      (∀ s ∈ ss, s.isEncodable = true) ∧
        (globalNames (before ++ declarationsFrom address ss)).Nodup := by
  induction ss generalizing r before address with
  | nil => simp [emitAll, declarationsFrom, hb]
  | cons s rest ih =>
    rw [sizeSum_cons] at hsize
    have hone := emit_isOk_iff (hs s List.mem_cons_self) hf hb
    have hrest : ∀ t ∈ rest, t.isSimple = true := fun t ht => hs t (List.mem_cons_of_mem s ht)
    rw [emitAll, declarationsFrom, ← List.append_assoc, List.forall_mem_cons]
    cases hemit : emit s r with
    | error e =>
      simp only [hemit, reduceCtorEq, exists_false, false_iff, not_and] at hone ⊢
      intro henc hnodup
      rw [globalNames_append, List.nodup_append] at hnodup
      exact hone henc.1 hnodup.1
    | ok r₁ =>
      have hfits := hone.mp ⟨r₁, hemit⟩
      have hstep := emit_spec (hs s List.mem_cons_self) hf (by omega) hemit
      rw [ih hrest hstep.follows (by omega) hfits.2, and_iff_right hfits.1]

/-- The bytes of a run are as many as the sizes of its statements say. -/
theorem size_emit {s : Statement} {r r' : Run} (hs : s.isSimple = true) (h : emit s r = .ok r') :
    r'.code.size = r.code.size + s.size := by
  cases s with
  | label name pos =>
    obtain ⟨table, events, rfl⟩ := exists_table_of_emit_label h
    exact (closeRegion_frame r).2.2.2
  | localLabel name pos =>
    obtain ⟨table, events, rfl⟩ := exists_table_of_emit_localLabel h
    rfl
  | instruction m operands pos =>
    obtain ⟨e, events, he, rfl⟩ := exists_encoding_of_emit h
    rw [size_writeFields, append, size_appendList, Statement.size_instruction he,
      Encoding.length_eq, Encoding.widths, Nat.add_assoc]
  | data items pos =>
    obtain ⟨bytes, hb, rfl⟩ := emit_data_eq_ok_iff.mp h
    rw [report, append, size_appendList, Statement.size_data hb]
  | times count body pos => cases hs
  | bareTimes count pos => cases h
  | other tag m operands pos => cases h

theorem size_emitAll {ss : List Statement} {r r' : Run} (hs : ∀ s ∈ ss, s.isSimple = true)
    (h : emitAll ss r = .ok r') : r'.code.size = r.code.size + sizeSum ss := by
  induction ss generalizing r with
  | nil => cases h; rfl
  | cons s rest ih =>
    obtain ⟨r₁, hemit, h⟩ := emitAll_cons_eq_ok_iff.mp h
    rw [ih (fun t ht => hs t (List.mem_cons_of_mem s ht)) h,
      size_emit (hs s List.mem_cons_self) hemit, sizeSum_cons, Nat.add_assoc]

theorem finish_frame (r : Run) :
    r.finish.layouts = r.layouts ∧ r.finish.declared = r.declared ∧
      r.finish.code.size = r.code.size := by
  obtain ⟨events, h⟩ := r.patch_eq
  rw [finish, h]
  refine ⟨rfl, rfl, ?_⟩
  simp only [List.size_toArray, length_fillSome, Array.length_toList]

end Run

/-! ## 4. Programs -/

/-- What a run over a program comes to, if every statement can be placed. -/
theorem assembleProgram_of_emitAll {program : List Statement} {r : Run}
    (h : Run.emitAll program {} = .ok r) :
    assembleProgram program =
      if r.finish.undefined.isEmpty then
        (.ok r.finish.code, r.finish.report (.completed r.finish.code.size r.finish.declared.size))
      else (.error (.undefined r.finish.undefined.toList), r.finish.withoutCode) := by
  rw [assembleProgram_eq, h]

/-- A program with an image is placed as a whole, repetitions written out, and
leaves no reference without its label. -/
theorem exists_run_of_assembleProgram {program : List Statement} {image : Image} {run : Run}
    (h : assembleProgram program = (.ok image, run)) :
    ∃ r, Run.emitAll (unroll program) {} = .ok r ∧ r.finish.undefined.isEmpty = true ∧
      image = r.finish.code ∧ ∃ event, run = r.finish.report event := by
  cases hemit : Run.emitAll program {} with
  | error e => rw [assembleProgram_eq, hemit] at h; simp at h
  | ok r =>
    rw [assembleProgram_of_emitAll hemit] at h
    split at h
    case isFalse hundef => simp at h
    case isTrue hundef =>
      simp only [Prod.mk.injEq, Except.ok.injEq] at h
      exact ⟨r, (Run.emitAll_unroll program {}).trans hemit, hundef, h.1.symm, _, h.2.symm⟩

/-- All that is known of a program that has an image. -/
structure Assembled (program : List Statement) (image : Image) (run : Run) : Prop where
  bytes : imageFrom? deferredRule [] 0 (unroll program) = some image.toList
  layouts : run.layouts.toList = layoutsFrom 0 (unroll program)
  declared : run.declared.toList = (declarationsFrom 0 (unroll program)).map (·.symbol)
  size : sizeSum (unroll program) = image.size
  encodable : ∀ s ∈ unroll program, s.isEncodable = true
  nodup : (Run.globalNames (declarationsFrom 0 (unroll program))).Nodup

theorem assembled_of_ok {program : List Statement} {image : Image} {run : Run}
    (h : assembleProgram program = (.ok image, run)) (hsize : image.size < 2 ^ 32) :
    Assembled program image run := by
  obtain ⟨r, hemit, hundef, rfl, event, rfl⟩ := exists_run_of_assembleProgram h
  obtain ⟨hlay, hdec, hlen⟩ := r.finish_frame
  have hsimple : ∀ s ∈ unroll program, s.isSimple = true := fun s => isSimple_of_mem_unroll
  have hsum : r.code.size = sizeSum (unroll program) := by
    simpa using Run.size_emitAll hsimple hemit
  have hbound : 0 + sizeSum (unroll program) < 2 ^ 32 := by
    rw [hlen, hsum] at hsize
    omega
  obtain ⟨-, hlayouts, hdeclared, himage⟩ :=
    Run.emitAll_spec hsimple Run.follows_start hbound hemit
  obtain ⟨henc, hnodup⟩ := (Run.emitAll_isOk_iff hsimple Run.follows_start hbound
    List.nodup_nil).mp ⟨r, hemit⟩
  refine ⟨?_, ?_, ?_, ?_, henc, hnodup⟩
  · have hempty : r.finish.image? = some r.finish.code.toList := by
      rw [Run.image?, Array.isEmpty_toList, if_pos hundef]
    rw [← hempty, himage]
    cases imageFrom? deferredRule [] 0 (unroll program) <;> rfl
  · simpa [Run.report, hlay] using hlayouts
  · simpa [Run.report, hdec] using hdeclared
  · rw [hlen, hsum]

/-- An assembler that gave an image knows the same, whatever it did before. -/
theorem Assembler.assembled {a a' : Assembler} {program : List Statement} {image : Image}
    (h : a.assembleProgram program = (.ok image, a')) (hsize : image.size < 2 ^ 32) :
    Assembled program image a'.last := by
  obtain ⟨run, hrun, hlast⟩ := assembleProgram_eq_ok h
  rw [hlast]
  have hasm := assembled_of_ok hrun hsize
  exact ⟨hasm.bytes, hasm.layouts, hasm.declared, hasm.size, hasm.encodable, hasm.nodup⟩

/-- A program whose statements all have a machine form, and whose global labels
all differ, has an image unless some name stands for nothing. -/
theorem assembleProgram_outcome {program : List Statement}
    (henc : ∀ s ∈ unroll program, s.isEncodable = true)
    (hnodup : (Run.globalNames (declarationsFrom 0 (unroll program))).Nodup)
    (hsize : sizeSum (unroll program) < 2 ^ 32) :
    (assembleProgram program).2.layouts.toList = layoutsFrom 0 (unroll program) ∧
    (assembleProgram program).2.declared.toList =
      (declarationsFrom 0 (unroll program)).map (·.symbol) ∧
    (∀ bytes, imageFrom? deferredRule [] 0 (unroll program) = some bytes →
      (assembleProgram program).1 = .ok bytes.toArray) ∧
    (imageFrom? deferredRule [] 0 (unroll program) = none →
      ∃ refs, (assembleProgram program).1 = .error (.undefined refs)) := by
  have hsimple : ∀ s ∈ unroll program, s.isSimple = true := fun s => isSimple_of_mem_unroll
  have hbound : 0 + sizeSum (unroll program) < 2 ^ 32 := by omega
  obtain ⟨r, hemit⟩ := (Run.emitAll_isOk_iff hsimple Run.follows_start hbound
    List.nodup_nil).mpr ⟨henc, hnodup⟩
  obtain ⟨-, hlayouts, hdeclared, himage⟩ :=
    Run.emitAll_spec hsimple Run.follows_start hbound hemit
  have hcode : r.finish.image? = imageFrom? deferredRule [] 0 (unroll program) := by
    rw [himage]
    cases imageFrom? deferredRule [] 0 (unroll program) <;> rfl
  obtain ⟨hlay, hdec, -⟩ := r.finish_frame
  rw [Run.emitAll_unroll] at hemit
  rw [assembleProgram_of_emitAll hemit, ← hcode, Run.image?, Array.isEmpty_toList]
  cases r.finish.undefined.isEmpty with
  | true =>
    refine ⟨?_, ?_, ?_, fun h => by simp at h⟩
    · simpa [Run.report, hlay] using hlayouts
    · simpa [Run.report, hdec] using hdeclared
    · intro bytes h
      simp only [if_true, Option.some.injEq] at h ⊢
      rw [← h]
  | false =>
    refine ⟨?_, ?_, fun bytes h => by simp at h, fun _ => ⟨_, rfl⟩⟩
    · simpa [Run.withoutCode, hlay] using hlayouts
    · simpa [Run.withoutCode, hdec] using hdeclared

end RegAsm
