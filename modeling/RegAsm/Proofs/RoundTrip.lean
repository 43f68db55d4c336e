/-
RegAsm.Proofs.RoundTrip — assembling the listing of an image.

The listing of an assembled program can be read and assembled.  Every label and
every instruction is where it was, but an operand is shown by a name that is
chosen by its value alone.  A global name stands for its label anywhere.  A
local name may stand for another label where it is shown, or for none, and then
the image is not the same.

1. The labels of a program.
2. The listing of a program.
3. Programs without local labels.
4. Local names.
-/
import RegAsm.Proofs.Places
import RegAsm.Proofs.Reassembly
import RegAsm.Proofs.TwoPass

namespace RegAsm

open Machine
open Source (Position)

/-! ## 1. Labels -/

theorem toOption_eq_some_iff {ε α : Type} {x : Except ε α} {y : α} :
    x.toOption = some y ↔ x = .ok y := by
  cases x <;> simp [Except.toOption]

theorem Assembler.assemble_of_parse {a : Assembler} {source : String} {program : List Statement}
    (h : parse source = .ok program) : a.assemble source = a.assembleProgram program := by
  delta Assembler.assemble
  rw [h]

/-- A program without repetitions is its own unrolling. -/
theorem unroll_of_isSimple {ss : List Statement} (h : ∀ s ∈ ss, s.isSimple = true) :
    unroll ss = ss := by
  induction ss with
  | nil => rfl
  | cons s rest ih =>
    obtain ⟨hs, hrest⟩ := List.forall_mem_cons.mp h
    have hone : s.unrolled = [s] := by
      cases s with
      | times count body pos => cases hs
      | _ => rfl
    rw [unroll, List.flatMap_cons, hone]
    exact congrArg (s :: ·) (ih hrest)

/-- Lines that are read as statements for the rows of an image are read as a
program of the image's size, with the labels and places of the rows. -/
theorem Listing.Relists.program {labels : Labels} {rows : List Listing.Row} {ss : List Statement}
    {image : Image} {lines : List String} (h : Listing.Relists labels rows ss)
    (hspell : LinesSpell lines ss) (hrows : ∀ r ∈ rows, r.Recoded labels)
    (hshows : Listing.Shows image 0 rows) :
    ∃ program', parse (String.join lines) = .ok program' ∧
      (∀ s ∈ unroll program', s.isEncodable = true) ∧
      sizeSum (unroll program') = image.size ∧
      declarationsFrom 0 (unroll program') = Listing.rowDeclarations 0 rows ∧
      layoutsFrom 0 (unroll program') = rows.filterMap Listing.Row.layout? ∧
      ∀ rule, imageFrom? rule [] 0 (unroll program') = imageFrom? rule [] 0 ss := by
  obtain ⟨program', hparse, rfl⟩ := hspell.parse
  obtain ⟨hall, htotal, hdecl, hlay⟩ := h.placed hrows hshows
  have hunroll : (unroll program').map Statement.unplaced = program'.map Statement.unplaced := by
    rw [← unroll_unplaced, unroll_of_isSimple fun s hs => (hall s hs).1]
  refine ⟨program', hparse, fun s hs => ?_, ?_, ?_, ?_, fun rule => ?_⟩
  · have hmem : s.unplaced ∈ program'.map Statement.unplaced :=
      hunroll ▸ List.mem_map_of_mem hs
    rw [← s.isEncodable_unplaced, (hall _ hmem).2]
  · have hend := hshows.size
    rw [← sizeSum_unplaced, hunroll, htotal]
    simpa using hend
  · rw [← declarationsFrom_unplaced, hunroll, hdecl]
  · rw [← layoutsFrom_unplaced, hunroll, hlay]
  · rw [← imageFrom?_unplaced, hunroll]

namespace Assembled

variable {program : List Statement} {image : Image} {run : Run}

section Labels

variable (h : Assembled program image run) (hsize : image.size < 2 ^ 32)

include h hsize

theorem address_lt {d : Declaration} (hd : d ∈ firstPass program) : d.address < 2 ^ 32 := by
  have hle := (address_of_mem_declarationsFrom hd).2
  rw [h.size] at hle
  omega

/-- The names at an address are those of the labels there. -/
theorem mem_names_iff {v : UInt32} {name : String} :
    name ∈ (Labels.ofSymbols run.declared.toList).names v ↔
      ∃ d ∈ firstPass program, d.name = name ∧ d.address = v.toNat := by
  rw [Labels.names_ofSymbols, h.declared]
  simp only [List.mem_map, List.mem_filter, decide_eq_true_eq]
  constructor
  · rintro ⟨s, ⟨⟨d, hd, rfl⟩, rfl⟩, rfl⟩
    exact ⟨d, hd, rfl, (UInt32.toNat_ofNat_of_lt' (h.address_lt hsize hd)).symm⟩
  · rintro ⟨d, hd, rfl, haddress⟩
    refine ⟨d.symbol, ⟨⟨d, hd, rfl⟩, ?_⟩, rfl⟩
    rw [Declaration.symbol, haddress, UInt32.ofNat_toNat]

theorem readable (hwritten : ∀ s ∈ program, s.Written) :
    (Labels.ofSymbols run.declared.toList).Readable := by
  intro v name hbest
  obtain ⟨d, hd, rfl, -⟩ := (h.mem_names_iff hsize).mp (Labels.mem_names_of_best? hbest)
  rcases isName_of_mem_declarationsFrom (written_unroll hwritten) hd with ⟨-, hname⟩ | ⟨-, hname⟩
  · exact .inl hname
  · exact .inr hname

/-- Wherever the labels of a program are cut in two, a name stands for an
address with a label. -/
theorem cover {before after : List Declaration} (hsplit : before ++ after = firstPass program) :
    (Labels.ofSymbols run.declared.toList).Cover (regionRule.address? before after) := by
  intro label v haddress
  obtain ⟨n, hn, rfl⟩ := Option.map_eq_some_iff.mp haddress
  obtain ⟨d, hd, -, rfl⟩ := mem_of_regionRule hn
  rw [hsplit] at hd
  refine Labels.exists_best? ((h.mem_names_iff hsize).mpr ⟨d, hd, rfl, ?_⟩)
  exact (UInt32.toNat_ofNat_of_lt' (h.address_lt hsize hd)).symm

/-- A global name stands for the label that it is printed for, wherever it is
mentioned. -/
theorem mentioned?_global (hwritten : ∀ s ∈ program, s.Written) {v : UInt32} {name : String}
    (hbest : (Labels.ofSymbols run.declared.toList).best? v = some name)
    (hname : isLocalName name = false) (address : Nat) :
    regionRule.mentioned? (firstPass program) address name = some v.toNat := by
  obtain ⟨d, hd, rfl, haddress⟩ := (h.mem_names_iff hsize).mp (Labels.mem_names_of_best? hbest)
  have hglobal : d.isGlobal = true := by
    have hnamed := wellNamed_declarationsFrom (written_unroll hwritten) 0 d hd
    rw [hname] at hnamed
    simpa using hnamed.symm
  rw [← haddress]
  refine regionRule_of_unique (mem_cut_iff.mpr hd) hglobal hname fun d' hd' hglobal' hsame => ?_
  exact List.inj_on_of_nodup_map h.nodup
    (List.mem_filter.mpr ⟨mem_cut_iff.mp hd', hglobal'⟩) (List.mem_filter.mpr ⟨hd, hglobal⟩) hsame

/-- What a name stands for is an address that the machine can hold. -/
theorem mentionedAddress?_eq_some_iff {address : Nat} {name : String} {v : UInt32} :
    regionRule.mentionedAddress? (firstPass program) address name = some v ↔
      regionRule.mentioned? (firstPass program) address name = some v.toNat := by
  rw [NameRule.mentionedAddress?, NameRule.address?, Option.map_eq_some_iff, NameRule.mentioned?]
  constructor
  · rintro ⟨n, hn, rfl⟩
    obtain ⟨d, hd, -, rfl⟩ := mem_of_regionRule hn
    rw [hn, UInt32.toNat_ofNat_of_lt' (h.address_lt hsize (mem_cut_iff.mp hd))]
  · intro hn
    exact ⟨v.toNat, hn, UInt32.ofNat_toNat⟩

end Labels

end Assembled

/-! ## 2. The listing -/

/-- Something holds of every operand that a listing shows by a local name, given
the address of its instruction. -/
def ForLocalNames (image : Image) (layouts : List Layout) (labels : Labels)
    (P : Nat → DecodedOperand → String → Prop) : Prop :=
  ∀ l ∈ layouts, ∀ i ∈ (Instruction.decode image l).toOption, ∀ d ∈ i.operands,
    ∀ name ∈ Instruction.shownName? labels d, isLocalName name = true → P l.offset.toNat d name

instance (image : Image) (layouts : List Layout) (labels : Labels)
    (P : Nat → DecodedOperand → String → Prop) [∀ a d name, Decidable (P a d name)] :
    Decidable (ForLocalNames image layouts labels P) := by
  unfold ForLocalNames
  infer_instance

/-- A program that the listing of an assembled program is read as. -/
structure Relisted (program : List Statement) (image : Image) (labels : Labels)
    (program' : List Statement) : Prop where
  encodable : ∀ s ∈ unroll program', s.isEncodable = true
  size : sizeSum (unroll program') = image.size
  declared : firstPass program' = firstPass program
  layouts : layoutsFrom 0 (unroll program') = layoutsFrom 0 (unroll program)
  /-- It has the same image if every name that is shown stands for the value of
  its operand. -/
  stands : secondPass? program' = some image.toList ↔
    ∀ l i, .code l i ∈ Listing.rowsFrom image 0 (unroll program) → ∀ d ∈ i.operands,
      NamesStand labels (regionRule.mentionedAddress? (firstPass program) l.offset.toNat) d
  /-- It has an image if every name that is shown stands for something. -/
  known : (secondPass? program').isSome = true ↔
    ∀ l i, .code l i ∈ Listing.rowsFrom image 0 (unroll program) → ∀ d ∈ i.operands,
      NamesKnown labels (regionRule.mentionedAddress? (firstPass program) l.offset.toNat) d
  /-- An operand that is shown by a name is read back as what the name stands
  for. -/
  decoded : ∀ image' : Image, secondPass? program' = some image'.toList →
    ∀ l i, .code l i ∈ Listing.rowsFrom image 0 (unroll program) →
      ∃ i', Instruction.decode image' l = .ok i' ∧
        List.Forall₂ (fun d d' => ∀ name, Instruction.shownName? labels d = some name →
          regionRule.mentionedAddress? (firstPass program) l.offset.toNat name = some d'.value)
          i.operands i'.operands

section Listed

variable {program : List Statement} {image : Image} {run : Run}
variable (h : Assembled program image run) (hwritten : ∀ s ∈ program, s.Written)
variable (hsize : image.size < 2 ^ 32)

include h hsize

/-- The instructions among the rows are those that are read at their places. -/
theorem Assembled.code_mem_iff {l : Layout} {i : Instruction} :
    .code l i ∈ Listing.rowsFrom image 0 (unroll program) ↔
      l ∈ run.layouts.toList ∧ Instruction.decode image l = .ok i := by
  obtain ⟨hlayouts, -, hshows⟩ := h.rows hsize
  rw [h.layouts, ← hlayouts, List.mem_filterMap]
  constructor
  · intro hmem
    exact ⟨⟨_, hmem, rfl⟩, hshows.decode hmem⟩
  · rintro ⟨⟨r, hr, hl⟩, hdecode⟩
    cases r with
    | label name => cases hl
    | byte b => cases hl
    | code l' i' =>
      cases hl
      have hsame := (hshows.decode hr).symm.trans hdecode
      cases hsame
      exact hr

/-- What holds of every global name that is shown holds of every name if it
holds of the local ones. -/
theorem Assembled.forLocalNames_iff {P : Nat → DecodedOperand → String → Prop}
    (hglobal : ∀ address d name, (Labels.ofSymbols run.declared.toList).best? d.value = some name →
      isLocalName name = false → P address d name) :
    (∀ l i, .code l i ∈ Listing.rowsFrom image 0 (unroll program) → ∀ d ∈ i.operands,
      ∀ name, Instruction.shownName? (.ofSymbols run.declared.toList) d = some name →
        P l.offset.toNat d name) ↔
    ForLocalNames image run.layouts.toList (.ofSymbols run.declared.toList) P := by
  constructor
  · intro hall l hl i hi d hd name hname _
    have hcode := (h.code_mem_iff hsize).mpr ⟨hl, toOption_eq_some_iff.mp hi⟩
    exact hall l i hcode d hd name hname
  · intro hall l i hcode d hd name hname
    obtain ⟨hl, hi⟩ := (h.code_mem_iff hsize).mp hcode
    cases hlocal : isLocalName name with
    | true => exact hall l hl i (toOption_eq_some_iff.mpr hi) d hd name hname hlocal
    | false => exact hglobal _ d name (Instruction.best?_of_shownName? hname) hlocal

include hwritten

/-- The rows of a program can be listed and have its bytes and labels. -/
theorem Assembled.recoded :
    (∀ r ∈ Listing.rowsFrom image 0 (unroll program),
      r.Recoded (.ofSymbols run.declared.toList) ∧ r.Listable) ∧
    (Listing.rowsFrom image 0 (unroll program)).flatMap Listing.Row.bytes = image.toList ∧
    Listing.rowDeclarations 0 (Listing.rowsFrom image 0 (unroll program)) = firstPass program :=
  @Listing.rowsFrom_recoded _ image regionRule [] (unroll program) [] image.toList
    (written_unroll hwritten) (fun _ _ hsplit => h.cover hsize hsplit) (h.secondPass? hwritten)
    (List.nil_append _).symm hsize

/-- The listing of an assembled program is read as a program with the same
labels and places. -/
theorem Assembled.relisted :
    ∃ text program',
      RegAsm.disassemble image run.layouts.toList (.ofSymbols run.declared.toList) = .ok text ∧
      parse text = .ok program' ∧
      Relisted program image (.ofSymbols run.declared.toList) program' := by
  obtain ⟨hlayouts, -, hshows⟩ := h.rows hsize
  obtain ⟨hrows, hbytes, hlabels⟩ := h.recoded hwritten hsize
  have hrecoded := fun r hr => (hrows r hr).1
  obtain ⟨ss, hspell, hrelists⟩ := Listing.linesOf_spell (h.readable hsize hwritten)
    (fun r hr => (hrows r hr).2) []
  obtain ⟨program', hparse, hencodable, hsum, hdecl, hlay, hpass⟩ :=
    hrelists.program hspell hrecoded hshows
  obtain ⟨hstand, hknown⟩ := hrelists.image_iff hrecoded hshows regionRule
    (List.nil_append _).symm fun d hd => nomatch hd
  refine ⟨_, program', h.disassemble hsize, hparse, hencodable, hsum, hdecl.trans hlabels,
    hlay.trans hlayouts, ?_, ?_, ?_⟩
  · rw [RegAsm.secondPass?, hpass, ← hbytes]
    simpa [hlabels] using hstand
  · rw [RegAsm.secondPass?, hpass]
    simpa [hlabels] using hknown
  · intro image' himage l i hcode
    have hlength : image'.size = image.size := by
      rw [← Array.length_toList, length_of_imageFrom? himage, hsum]
    have hdecoded := hrelists.decoded hrecoded hshows ((hpass regionRule).symm.trans himage)
      (by omega) hcode
    simpa [hlabels] using hdecoded

/-- Only local names can stand for something else than they are shown for. -/
theorem Assembled.namesStand_iff :
    (∀ l i, .code l i ∈ Listing.rowsFrom image 0 (unroll program) → ∀ d ∈ i.operands,
      NamesStand (.ofSymbols run.declared.toList)
        (regionRule.mentionedAddress? (firstPass program) l.offset.toNat) d) ↔
    ForLocalNames image run.layouts.toList (.ofSymbols run.declared.toList) fun address d name =>
      regionRule.mentioned? (firstPass program) address name = some d.value.toNat := by
  rw [← h.forLocalNames_iff hsize fun address d name hbest hname =>
    h.mentioned?_global hsize hwritten hbest hname address]
  simp only [NamesStand, h.mentionedAddress?_eq_some_iff hsize]

/-- Only local names can stand for nothing. -/
theorem Assembled.namesKnown_iff :
    (∀ l i, .code l i ∈ Listing.rowsFrom image 0 (unroll program) → ∀ d ∈ i.operands,
      NamesKnown (.ofSymbols run.declared.toList)
        (regionRule.mentionedAddress? (firstPass program) l.offset.toNat) d) ↔
    ForLocalNames image run.layouts.toList (.ofSymbols run.declared.toList) fun address _ name =>
      (regionRule.mentioned? (firstPass program) address name).isSome = true := by
  rw [← h.forLocalNames_iff hsize fun address d name hbest hname => by
    rw [h.mentioned?_global hsize hwritten hbest hname address, Option.isSome_some]]
  simp only [NamesKnown, NameRule.mentionedAddress?, NameRule.address?, Option.isSome_map,
    NameRule.mentioned?]

/-- The listing of an assembled program is assembled to the same labels and
places, and its image is that of the program it is read as. -/
theorem Assembled.reassembled (b : Assembler) :
    ∃ text program' result b',
      RegAsm.disassemble image run.layouts.toList (.ofSymbols run.declared.toList) = .ok text ∧
      Relisted program image (.ofSymbols run.declared.toList) program' ∧
      b.assemble text = (result, b') ∧
      b'.layouts = run.layouts.toList ∧ b'.symbols = run.declared.toList ∧
      (∀ bytes, RegAsm.secondPass? program' = some bytes → result = .ok bytes.toArray) ∧
      (RegAsm.secondPass? program' = none →
        ∃ refs, result = .error (.program (.undefined refs))) := by
  obtain ⟨text, program', htext, hparse, hprogram⟩ := h.relisted hwritten hsize
  have hnodup : (Run.globalNames (firstPass program')).Nodup := by
    rw [hprogram.declared]
    exact h.nodup
  have hnamed : WellNamed ([] ++ firstPass program') := by
    rw [hprogram.declared]
    exact wellNamed_declarationsFrom (written_unroll hwritten) 0
  have hpass : imageFrom? deferredRule [] 0 (unroll program') = RegAsm.secondPass? program' :=
    imageFrom?_regionRule hnamed
  have hbound : sizeSum (unroll program') < 2 ^ 32 := by rwa [hprogram.size]
  obtain ⟨hlayouts, hdeclared, hok, herror⟩ :=
    assembleProgram_outcome hprogram.encodable hnodup hbound
  rw [hpass] at hok herror
  have hassemble : b.assemble text = ((RegAsm.assembleProgram program').1.mapError .program,
      ⟨(RegAsm.assembleProgram program').2.following b.last.events⟩) := by
    rw [Assembler.assemble_of_parse hparse, Assembler.assembleProgram_eq_first]
  refine ⟨text, program', _, _, htext, hprogram, hassemble, ?_, ?_, fun bytes hbytes => ?_,
    fun hnone => ?_⟩
  · rw [h.layouts, ← hprogram.layouts]
    exact hlayouts
  · rw [h.declared]
    exact hdeclared.trans (congrArg (List.map _) hprogram.declared)
  · rw [hok bytes hbytes]
    rfl
  · obtain ⟨refs, hrefs⟩ := herror hnone
    exact ⟨refs, by rw [hrefs]; rfl⟩

end Listed

/-! ## 3. Programs without local labels -/

section Assembler

variable {a a' : Assembler} {source : String} {program : List Statement} {image : Image}

theorem assembled_of_assemble (hparse : parse source = .ok program)
    (h : a.assemble source = (.ok image, a')) (hsize : image.size < 2 ^ 32) :
    Assembled program image a'.last := by
  rw [Assembler.assemble_of_parse hparse] at h
  exact Assembler.assembled h hsize

/-- Assembling, listing and assembling again changes nothing in a program all of
whose labels are global. -/
theorem listing_reassembles (hparse : parse source = .ok program)
    (h : a.assemble source = (.ok image, a')) (hsize : image.size < 2 ^ 32)
    (hglobal : ∀ d ∈ firstPass program, d.isGlobal = true) (b : Assembler) :
    ∃ text b', disassemble image a'.layouts (.ofSymbols a'.symbols) = .ok text ∧
      b.assemble text = (.ok image, b') ∧ b'.layouts = a'.layouts ∧ b'.symbols = a'.symbols := by
  have hasm := assembled_of_assemble hparse h hsize
  have hwritten := written_of_parse hparse
  obtain ⟨text, program', result, b', htext, hprogram, hassemble, hlayouts, hsymbols, hok, -⟩ :=
    hasm.reassembled hwritten hsize b
  have hlocal : ForLocalNames image a'.layouts (.ofSymbols a'.symbols) fun address d name =>
      regionRule.mentioned? (firstPass program) address name = some d.value.toNat := by
    intro l _ i _ d _ name hname hlocal
    -- There is no local name to be shown.
    obtain ⟨d', hd', rfl, -⟩ := (hasm.mem_names_iff hsize).mp
      (Labels.mem_names_of_best? (Instruction.best?_of_shownName? hname))
    have hnamed := wellNamed_declarationsFrom (written_unroll hwritten) 0 d' hd'
    rw [hlocal, hglobal d' hd'] at hnamed
    cases hnamed
  have hbytes := hprogram.stands.mpr ((hasm.namesStand_iff hwritten hsize).mpr hlocal)
  have hresult : result = .ok image := hok _ hbytes
  exact ⟨text, b', htext, hresult ▸ hassemble, hlayouts, hsymbols⟩

end Assembler

/-- A move of a label, one of a stated size, a number that is the address of a
label, and data that are written in another way. -/
def movesAndData : String :=
  "start: mov A, end\ntimes 2 movd (B), 7\nmov ($0), C\n" ++
  "db \"hello\", 10, 0\nend: cmp (end), start\njmp start\nhlt"

theorem listing_reassembles_movesAndData :
    ∃ program image a', parse movesAndData = .ok program ∧
      ({} : Assembler).assemble movesAndData = (.ok image, a') ∧ image.size < 2 ^ 32 ∧
      (∀ d ∈ firstPass program, d.isGlobal = true) ∧
      ∃ text b', disassemble image a'.layouts (.ofSymbols a'.symbols) = .ok text ∧
        ({} : Assembler).assemble text = (.ok image, b') ∧ b'.layouts = a'.layouts ∧
        b'.symbols = a'.symbols := by
  have hrun : forgetfully movesAndData (fun program image _ =>
      image.size < 2 ^ 32 ∧ ∀ d ∈ firstPass program, d.isGlobal = true) = true := by
    decide +kernel
  obtain ⟨program, image, a', hparse, hasm, hboth⟩ := exists_image_of_forgetfully hrun
  obtain ⟨hsize, hglobal⟩ := of_decide_eq_true hboth
  have hsource : ({} : Assembler).assemble movesAndData = (.ok image, a') :=
    (Assembler.assemble_of_parse hparse).trans hasm
  exact ⟨program, image, a', hparse, hsource, hsize, hglobal,
    listing_reassembles hparse hsource hsize hglobal {}⟩

/-! ## 4. Local names -/

/-- The listing of an assembled program assembles to the same labels and places,
or some names in it stand for nothing.  An operand that it shows by a global name
keeps its value; one that it shows by a local name gets the address that the name
stands for where it is shown, which depends on the labels around it.  So there is
an image exactly if every such local name stands for something, and the image is
the same exactly if every one stands for the value of its operand. -/
theorem listing_reassembles_iff {a a' : Assembler} {source : String} {program : List Statement}
    {image : Image} (hparse : parse source = .ok program)
    (h : a.assemble source = (.ok image, a')) (hsize : image.size < 2 ^ 32) (b : Assembler) :
    ∃ text result b', disassemble image a'.layouts (.ofSymbols a'.symbols) = .ok text ∧
      b.assemble text = (result, b') ∧ b'.layouts = a'.layouts ∧ b'.symbols = a'.symbols ∧
      (∀ e, result = .error e → ∃ refs, e = .program (.undefined refs)) ∧
      ((∃ image', result = .ok image') ↔
        ForLocalNames image a'.layouts (.ofSymbols a'.symbols) fun address _ name =>
          (regionRule.mentioned? (firstPass program) address name).isSome = true) ∧
      (result = .ok image ↔
        ForLocalNames image a'.layouts (.ofSymbols a'.symbols) fun address d name =>
          regionRule.mentioned? (firstPass program) address name = some d.value.toNat) ∧
      ∀ image', result = .ok image' → ∀ l ∈ a'.layouts, ∀ i, Instruction.decode image l = .ok i →
        ∃ i', Instruction.decode image' l = .ok i' ∧
          List.Forall₂ (fun d d' => ∀ name,
            Instruction.shownName? (.ofSymbols a'.symbols) d = some name →
              regionRule.mentioned? (firstPass program) l.offset.toNat name = some d'.value.toNat ∧
              (isLocalName name = false → d'.value = d.value)) i.operands i'.operands := by
  have hasm := assembled_of_assemble hparse h hsize
  have hwritten := written_of_parse hparse
  obtain ⟨text, program', result, b', htext, hprogram, hassemble, hlayouts, hsymbols, hok, hnone⟩ :=
    hasm.reassembled hwritten hsize b
  have hstands := hprogram.stands.trans (hasm.namesStand_iff hwritten hsize)
  have hknown := hprogram.known.trans (hasm.namesKnown_iff hwritten hsize)
  have hresult : ∀ image', result = .ok image' ↔ secondPass? program' = some image'.toList := by
    intro image'
    cases hbytes : secondPass? program' with
    | none =>
      obtain ⟨refs, hrefs⟩ := hnone hbytes
      simp [hrefs]
    | some bytes =>
      rw [hok bytes hbytes, Option.some.injEq, Except.ok.injEq, ← Array.toList_inj]
  refine ⟨text, result, b', htext, hassemble, hlayouts, hsymbols, ?_, ?_, ?_, ?_⟩
  · intro e he
    cases hbytes : secondPass? program' with
    | none =>
      obtain ⟨refs, hrefs⟩ := hnone hbytes
      exact ⟨refs, Except.error.inj (he.symm.trans hrefs)⟩
    | some bytes => cases he.symm.trans (hok bytes hbytes)
  · refine Iff.trans ?_ hknown
    rw [Option.isSome_iff_exists]
    constructor
    · rintro ⟨image', himage⟩
      exact ⟨_, (hresult image').mp himage⟩
    · rintro ⟨bytes, hbytes⟩
      exact ⟨_, hok bytes hbytes⟩
  · exact (hresult image).trans hstands
  · intro image' himage l hl i hi
    obtain ⟨i', hdecode, hall⟩ := hprogram.decoded image' ((hresult image').mp himage) l i
      ((hasm.code_mem_iff hsize).mpr ⟨hl, hi⟩)
    refine ⟨i', hdecode, hall.imp fun d d' hshown name hname => ?_⟩
    have hstand := (hasm.mentionedAddress?_eq_some_iff hsize).mp (hshown name hname)
    refine ⟨hstand, fun hname' => ?_⟩
    have hkept := hasm.mentioned?_global hsize hwritten (Instruction.best?_of_shownName? hname)
      hname' l.offset.toNat
    exact UInt32.toNat_inj.mp (Option.some.inj (hstand.symm.trans hkept))

/-- Two regions with a local label of the same name, each with names in it. -/
def twoRegions : String :=
  "f: .a: hlt\njmp .a\n.b: jmp .b\ng: jmp f\n.a: hlt\njmp .a"

theorem listing_reassembles_iff_twoRegions :
    ∃ program image a', parse twoRegions = .ok program ∧
      ({} : Assembler).assemble twoRegions = (.ok image, a') ∧ image.size < 2 ^ 32 ∧
      (∃ d ∈ firstPass program, d.isGlobal = false) ∧
      ∃ text b', disassemble image a'.layouts (.ofSymbols a'.symbols) = .ok text ∧
        ({} : Assembler).assemble text = (.ok image, b') := by
  have hrun : forgetfully twoRegions (fun program image run => decide (image.size < 2 ^ 32 ∧
      (∃ d ∈ firstPass program, d.isGlobal = false) ∧
      ForLocalNames image run.layouts.toList (.ofSymbols run.declared.toList) fun address d name =>
        regionRule.mentioned? (firstPass program) address name = some d.value.toNat)) = true := by
    decide +kernel
  obtain ⟨program, image, a', hparse, hasm, hall⟩ := exists_image_of_forgetfully hrun
  obtain ⟨hsize, hlocal, hstands⟩ := of_decide_eq_true hall
  have hsource : ({} : Assembler).assemble twoRegions = (.ok image, a') :=
    (Assembler.assemble_of_parse hparse).trans hasm
  obtain ⟨text, result, b', htext, hassemble, -, -, -, -, hsame, -⟩ :=
    listing_reassembles_iff hparse hsource hsize {}
  have hresult : result = .ok image := hsame.mpr hstands
  exact ⟨program, image, a', hparse, hsource, hsize, hlocal, text, b', htext, hresult ▸ hassemble⟩

/-- A label at the same address as another one that is shadowed before it is
used. -/
def shadowedName : String := ".a:\n.b: hlt\n.a: jmp .b"

/-- A number that is the address of a local label of another region. -/
def numberFromOutside : String := ".a: hlt\ng: mov ($0), A"

/-- A listing may show an operand by a local name that stands for another label
there, or for none. -/
theorem listing_local_names_differ :
    (∃ a' text b', ({} : Assembler).assemble shadowedName =
        (.ok #[0x3C, 0x04, 0x10, 0x00, 0x00, 0x00, 0x00], a') ∧
      disassemble #[0x3C, 0x04, 0x10, 0x00, 0x00, 0x00, 0x00] a'.layouts (.ofSymbols a'.symbols) =
        .ok text ∧
      text = ".a:\n.b:\n    hlt\n.a:\n    jmp      .a\n" ∧
      ({} : Assembler).assemble text = (.ok #[0x3C, 0x04, 0x10, 0x01, 0x00, 0x00, 0x00], b')) ∧
    ∃ image a' text refs b', ({} : Assembler).assemble numberFromOutside = (.ok image, a') ∧
      disassemble image a'.layouts (.ofSymbols a'.symbols) = .ok text ∧
      ({} : Assembler).assemble text = (.error (.program (.undefined refs)), b') := by
  refine ⟨?_, ?_⟩
  · have hrun : forgetfully shadowedName (fun _ image run => decide
        (image = #[0x3C, 0x04, 0x10, 0x00, 0x00, 0x00, 0x00] ∧
        (disassemble image run.layouts.toList (.ofSymbols run.declared.toList)).toOption =
          some ".a:\n.b:\n    hlt\n.a:\n    jmp      .a\n")) = true := by
      decide +kernel
    have hagain : forgetfully ".a:\n.b:\n    hlt\n.a:\n    jmp      .a\n" (fun _ image _ => decide
        (image = #[0x3C, 0x04, 0x10, 0x01, 0x00, 0x00, 0x00])) = true := by
      decide +kernel
    obtain ⟨program, image, a', hparse, hasm, hall⟩ := exists_image_of_forgetfully hrun
    obtain ⟨rfl, htext⟩ := of_decide_eq_true hall
    obtain ⟨program', image', b', hparse', hasm', himage'⟩ := exists_image_of_forgetfully hagain
    cases of_decide_eq_true himage'
    exact ⟨a', _, b', (Assembler.assemble_of_parse hparse).trans hasm,
      toOption_eq_some_iff.mp htext, rfl,
      (Assembler.assemble_of_parse hparse').trans hasm'⟩
  · have hrun : forgetfully numberFromOutside (fun program image run => decide
        (image.size < 2 ^ 32 ∧
        ¬ ForLocalNames image run.layouts.toList (.ofSymbols run.declared.toList)
          fun address _ name =>
            (regionRule.mentioned? (firstPass program) address name).isSome = true)) = true := by
      decide +kernel
    obtain ⟨program, image, a', hparse, hasm, hall⟩ := exists_image_of_forgetfully hrun
    obtain ⟨hsize, hunknown⟩ := of_decide_eq_true hall
    have hsource := (Assembler.assemble_of_parse hparse).trans hasm
    have hwritten := written_of_parse hparse
    have hspec := assembled_of_assemble hparse hsource hsize
    obtain ⟨text, program', result, b', htext, hprogram, hagain, -, -, -, hnone⟩ :=
      hspec.reassembled hwritten hsize {}
    have hpass : secondPass? program' = none := by
      refine Option.not_isSome_iff_eq_none.mp fun hsome => hunknown ?_
      exact (hspec.namesKnown_iff hwritten hsize).mp (hprogram.known.mp hsome)
    obtain ⟨refs, rfl⟩ := hnone hpass
    exact ⟨image, a', text, refs, b', hsource, htext, hagain⟩

end RegAsm
