/-
RegAsm.Proofs.Reassembly — the size, labels and bytes of a listing that is read.

The statements that a listing is read as stand for its rows.  They take the
places of the rows and declare the same labels (`Relists.placed`).  What names
stand for may have changed, since the listing does not name labels as the
program did: the image is the same if and only if every name that is shown
stands for the value of its operand where it is shown (`Relists.image_iff`).

1. The labels and the bytes of rows.
2. Names where they are mentioned.
3. Statements that stand for rows.
4. The rows of a program.
-/
import RegAsm.Proofs.Reencoding

namespace RegAsm

open Machine
open Source (Position)

namespace Listing

/-! ## 1. Rows -/

/-- A label at an address, as its name tells whether it is a local one. -/
def labelAt (address : Nat) (name : String) : Declaration := ⟨!isLocalName name, name, address⟩

/-- The labels among rows of which the first lies at an address. -/
def rowDeclarations (address : Nat) : List Row → List Declaration
  | [] => []
  | .label name :: rest => labelAt address name :: rowDeclarations address rest
  | .byte _ :: rest => rowDeclarations (address + 1) rest
  | .code _ i :: rest => rowDeclarations (address + i.length) rest

/-- The bytes that a row stands for. -/
def Row.bytes : Row → List UInt8
  | .label _ => []
  | .byte b => [b]
  | .code _ i => i.bytes

theorem rowDeclarations_append (address : Nat) (xs ys : List Row) :
    rowDeclarations address (xs ++ ys) =
      rowDeclarations address xs ++ rowDeclarations (address + rowsSize xs) ys := by
  induction xs generalizing address with
  | nil => rfl
  | cons r xs ih =>
    rw [rowsSize_cons, ← Nat.add_assoc]
    cases r with
    | label name | byte b | code l i =>
      rw [List.cons_append, rowDeclarations, ih, rowDeclarations]
      rfl

theorem rowDeclarations_bytes (address : Nat) (bytes : List UInt8) :
    rowDeclarations address (bytes.map .byte) = [] := by
  induction bytes generalizing address with
  | nil => rfl
  | cons b bytes ih => exact ih (address + 1)

/-- A label lies at or behind the first row. -/
theorem le_of_mem_rowDeclarations {address : Nat} {rows : List Row} {d : Declaration}
    (h : d ∈ rowDeclarations address rows) : address ≤ d.address := by
  induction rows generalizing address with
  | nil => cases h
  | cons r rest ih =>
    cases r with
    | label name =>
      rcases List.mem_cons.mp h with rfl | h
      · exact Nat.le_refl _
      · exact ih h
    | byte b => exact Nat.le_of_succ_le (ih h)
    | code l i => exact Nat.le_trans (Nat.le_add_right _ _) (ih h)

theorem flatMap_bytes_bytes (bytes : List UInt8) :
    (bytes.map Row.byte).flatMap Row.bytes = bytes := by
  rw [List.flatMap_map]
  exact List.flatMap_singleton' bytes

theorem code_mem_bytes_append {bytes : List UInt8} {rows : List Row} {l : Layout}
    {i : Instruction} : .code l i ∈ bytes.map Row.byte ++ rows ↔ .code l i ∈ rows := by
  simp

theorem forall_code_cons {Q : Layout → Instruction → Prop} {rows : List Row} {l : Layout}
    {i : Instruction} :
    (∀ l' i', .code l' i' ∈ Row.code l i :: rows → Q l' i') ↔
      Q l i ∧ ∀ l' i', .code l' i' ∈ rows → Q l' i' := by
  constructor
  · intro h
    exact ⟨h l i List.mem_cons_self, fun l' i' hmem => h l' i' (List.mem_cons_of_mem _ hmem)⟩
  · rintro ⟨hfirst, hrest⟩ l' i' hmem
    rcases List.mem_cons.mp hmem with heq | hmem
    · cases heq
      exact hfirst
    · exact hrest l' i' hmem

end Listing

/-! ## 2. Names -/

/-- What a name stands for where it is mentioned, at an address: the labels up
to the address are before it and the others behind it. -/
def NameRule.mentioned? (rule : NameRule) (ds : List Declaration) (address : Nat) :
    String → Option Nat :=
  rule (ds.filter (·.address ≤ address)) (ds.filter (address < ·.address))

/-- The same as the machine holds it. -/
def NameRule.mentionedAddress? (rule : NameRule) (ds : List Declaration) (address : Nat) :
    String → Option UInt32 :=
  rule.address? (ds.filter (·.address ≤ address)) (ds.filter (address < ·.address))

/-- Cut in two, the labels are still the same. -/
theorem mem_cut_iff {ds : List Declaration} {address : Nat} {d : Declaration} :
    d ∈ ds.filter (·.address ≤ address) ++ ds.filter (address < ·.address) ↔ d ∈ ds := by
  simp only [List.mem_append, List.mem_filter, decide_eq_true_eq, ← and_or_left]
  exact and_iff_left (by omega)

/-- The labels of a program are cut in two at each instruction. -/
theorem NameRule.address?_eq_mentionedAddress? (rule : NameRule) {before after : List Declaration}
    {address : Nat} (hbefore : ∀ d ∈ before, d.address ≤ address)
    (hafter : ∀ d ∈ after, address < d.address) :
    rule.address? before after = rule.mentionedAddress? (before ++ after) address := by
  have hnone : before.filter (address < ·.address) = [] := by
    refine List.filter_eq_nil_iff.mpr fun d hd => ?_
    have hle := hbefore d hd
    simpa using hle
  have hnone' : after.filter (·.address ≤ address) = [] := by
    refine List.filter_eq_nil_iff.mpr fun d hd => ?_
    have hlt := hafter d hd
    simpa using hlt
  have hall : before.filter (·.address ≤ address) = before :=
    List.filter_eq_self.mpr fun d hd => decide_eq_true (hbefore d hd)
  have hall' : after.filter (address < ·.address) = after :=
    List.filter_eq_self.mpr fun d hd => decide_eq_true (hafter d hd)
  rw [mentionedAddress?, List.filter_append, List.filter_append, hall, hall', hnone, hnone',
    List.append_nil, List.nil_append]

/-! ## 3. Statements -/

theorem Instruction.Recoded.size {labels : Labels} {i : Instruction} {e' : Encoding}
    (h : i.Recoded labels e') : (i.statement labels).size = i.bytes.length := by
  rw [← h.length, Instruction.statement, Statement.size, h.encoded]

namespace Listing

/-- A row whose instruction has a machine form at its place, as it is listed. -/
def Row.Recoded (labels : Labels) : Row → Prop
  | .code l i => i.bytes.length = i.length ∧
      ∃ e', i.Recoded labels e' ∧ e'.layout l.offset.toNat = l
  | _ => True

section Statements

variable {labels : Labels} {rows : List Row} {ss : List Statement} {image : Image} {address : Nat}

/-- Statements that stand for rows of an image take the places of the rows. -/
theorem Relists.placed (h : Relists labels rows ss) (hrows : ∀ r ∈ rows, r.Recoded labels)
    (hshows : Shows image address rows) :
    (∀ s ∈ ss, s.isSimple = true ∧ s.isEncodable = true) ∧
    sizeSum ss = rowsSize rows ∧
    declarationsFrom address ss = rowDeclarations address rows ∧
    layoutsFrom address ss = rows.filterMap Row.layout? := by
  induction h generalizing address with
  | nil => exact ⟨by simp, rfl, rfl, rfl⟩
  | label hname _ ih | localLabel hname _ ih =>
    obtain ⟨hall, hsize, hdecl, hlay⟩ := ih (fun r hr => hrows r (List.mem_cons_of_mem _ hr)) hshows
    refine ⟨List.forall_mem_cons.mpr ⟨⟨rfl, rfl⟩, hall⟩, ?_, ?_, hlay⟩
    · rw [sizeSum_cons, hsize, rowsSize_cons]
      rfl
    · rw [declarationsFrom, rowDeclarations, labelAt, hname.isLocalName]
      exact congrArg _ hdecl
  | @data items bytes rows ss hbytes _ ih =>
    have hrest := hshows.behind
    rw [rowsSize_bytes] at hrest
    obtain ⟨hall, hsize, hdecl, hlay⟩ := ih (fun r hr => hrows r (List.mem_append_right _ hr)) hrest
    have hdata : (Statement.data items .nowhere).size = bytes.length := by
      rw [Statement.size, hbytes]
    refine ⟨List.forall_mem_cons.mpr ⟨⟨rfl, ?_⟩, hall⟩, ?_, ?_, ?_⟩
    · rw [Statement.isEncodable, hbytes]
      rfl
    · rw [sizeSum_cons, hsize, rowsSize_append, rowsSize_bytes, hdata]
    · rw [declarationsFrom, hdata, hdecl, rowDeclarations_append, rowDeclarations_bytes,
        rowsSize_bytes]
      rfl
    · have hnone : (bytes.map Row.byte).filterMap Row.layout? = [] := by
        rw [List.filterMap_map]
        exact List.filterMap_eq_nil_iff.mpr fun b _ => rfl
      rw [layoutsFrom, hdata, hlay, List.filterMap_append, hnone]
      rfl
  | @code l i rows ss _ ih =>
    obtain ⟨hoffset, -, -, hrest⟩ := hshows
    obtain ⟨hlength, e', hcoded, hlayout⟩ := hrows _ List.mem_cons_self
    obtain ⟨hall, hsize, hdecl, hlay⟩ := ih (fun r hr => hrows r (List.mem_cons_of_mem _ hr)) hrest
    have hcode : (i.statement labels).size = i.length := hcoded.size.trans hlength
    refine ⟨List.forall_mem_cons.mpr ⟨⟨rfl, ?_⟩, hall⟩, ?_, ?_, ?_⟩
    · rw [Instruction.statement, Statement.isEncodable, hcoded.encoded]
      rfl
    · rw [sizeSum_cons, hsize, rowsSize_cons, hcode]
      rfl
    · rw [declarationsFrom, hcode, hdecl]
      rfl
    · have hlayouts : (i.statement labels).layouts address = [l] := by
        rw [hoffset] at hlayout
        rw [Instruction.statement, Statement.layouts, hcoded.encoded]
        simp only [hlayout]
      rw [layoutsFrom, hcode, hlay, hlayouts]
      rfl

/-- Statements that stand for rows of an image have the image of the rows if
every name that is shown stands for the value of its operand where it is shown,
and some image if every name stands for something. -/
theorem Relists.image_iff (h : Relists labels rows ss) (hrows : ∀ r ∈ rows, r.Recoded labels)
    (hshows : Shows image address rows) (rule : NameRule) {before ds : List Declaration}
    (hds : ds = before ++ rowDeclarations address rows)
    (hbefore : ∀ d ∈ before, d.address ≤ address) :
    (imageFrom? rule before address ss = some (rows.flatMap Row.bytes) ↔
      ∀ l i, .code l i ∈ rows → ∀ d ∈ i.operands,
        NamesStand labels (rule.mentionedAddress? ds l.offset.toNat) d) ∧
    ((imageFrom? rule before address ss).isSome = true ↔
      ∀ l i, .code l i ∈ rows → ∀ d ∈ i.operands,
        NamesKnown labels (rule.mentionedAddress? ds l.offset.toNat) d) := by
  induction h generalizing address before with
  | nil => simp [imageFrom?]
  | @label name rows ss hname _ ih | @localLabel name rows ss hname _ ih =>
    have hsplit : ds = before ++ [labelAt address name] ++ rowDeclarations address rows := by
      rw [hds, rowDeclarations, List.append_assoc]
      rfl
    have hbefore' : ∀ d ∈ before ++ [labelAt address name], d.address ≤ address := by
      intro d hd
      rcases List.mem_append.mp hd with hd | hd
      · exact hbefore d hd
      · cases List.mem_singleton.mp hd
        exact Nat.le_refl _
    have hnext := ih (fun r hr => hrows r (List.mem_cons_of_mem _ hr)) hshows hsplit hbefore'
    rw [labelAt, hname.isLocalName] at hnext
    simpa [imageFrom?, Statement.bytes?, Statement.declarations, Statement.size, Row.bytes]
      using hnext
  | @data items bytes rows ss hbytes _ ih =>
    have hrest := hshows.behind
    rw [rowDeclarations_append, rowDeclarations_bytes, List.nil_append] at hds
    rw [rowsSize_bytes] at hrest hds
    have hdata : (Statement.data items .nowhere).size = bytes.length := by
      rw [Statement.size, hbytes]
    have hnext := ih (fun r hr => hrows r (List.mem_append_right _ hr)) hrest hds
      fun d hd => Nat.le_trans (hbefore d hd) (Nat.le_add_right _ _)
    simp only [code_mem_bytes_append]
    rw [List.flatMap_append, flatMap_bytes_bytes, ← hnext.1, ← hnext.2]
    simp only [imageFrom?, Statement.bytes?, hbytes, Except.toOption, hdata, Statement.declarations,
      List.append_nil]
    refine ⟨?_, ?_⟩
    · rw [joined?_eq_append_iff fun zs hzs => by cases hzs; rfl]
      exact and_iff_right rfl
    · rw [isSome_joined?]
      exact and_iff_right rfl
  | @code l i rows ss hlist ih =>
    obtain ⟨hoffset, -, hpos, hrest⟩ := hshows
    obtain ⟨hlength, e', hcoded, -⟩ := hrows _ List.mem_cons_self
    have hrows' : ∀ r ∈ rows, r.Recoded labels := fun r hr => hrows r (List.mem_cons_of_mem _ hr)
    have hcode : (i.statement labels).size = i.length := hcoded.size.trans hlength
    have hnext := ih hrows' hrest hds fun d hd =>
      Nat.le_trans (hbefore d hd) (Nat.le_add_right _ _)
    -- The labels before the instruction lie at most where it does, the others behind it.
    have haddress : rule.address? before (declarationsFrom (address + i.length) ss) =
        rule.mentionedAddress? ds l.offset.toNat := by
      rw [(hlist.placed hrows' hrest).2.2.1, hoffset, hds]
      refine rule.address?_eq_mentionedAddress? hbefore fun d hd => ?_
      have hle := le_of_mem_rowDeclarations hd
      omega
    have himage : imageFrom? rule before address (i.statement labels :: ss) =
        joined? (e'.bytes? (rule.mentionedAddress? ds l.offset.toNat))
          (imageFrom? rule before (address + i.length) ss) := by
      have hnone : (i.statement labels).declarations address = [] := rfl
      simp only [imageFrom?, hnone, List.nil_append, List.append_nil, hcode, haddress]
      rw [Instruction.statement, Statement.bytes?, hcoded.encoded]
      rfl
    refine ⟨?_, ?_⟩
    · rw [forall_code_cons, ← hnext.1, ← hcoded.bytes, himage, List.flatMap_cons]
      refine joined?_eq_append_iff fun zs hzs => ?_
      rw [e'.length_of_bytes? hzs, hcoded.length]
      rfl
    · rw [forall_code_cons, ← hnext.2, ← hcoded.known, himage, isSome_joined?]

/-- An instruction among the rows is one of the statements, at its place. -/
theorem Relists.split (h : Relists labels rows ss) (hrows : ∀ r ∈ rows, r.Recoded labels)
    (hshows : Shows image address rows) {l : Layout} {i : Instruction} (hmem : .code l i ∈ rows) :
    ∃ before after, ss = before ++ i.statement labels :: after ∧
      address + sizeSum before = l.offset.toNat := by
  induction h generalizing address with
  | nil => cases hmem
  | label hname _ ih | localLabel hname _ ih =>
    obtain ⟨before, after, rfl, hplace⟩ := ih (fun r hr => hrows r (List.mem_cons_of_mem _ hr))
      hshows (by simpa using hmem)
    exact ⟨_ :: before, after, rfl, by simpa [Statement.size] using hplace⟩
  | @data items bytes rows ss hbytes _ ih =>
    have hrest := hshows.behind
    rw [rowsSize_bytes] at hrest
    obtain ⟨before, after, rfl, hplace⟩ := ih (fun r hr => hrows r (List.mem_append_right _ hr))
      hrest (code_mem_bytes_append.mp hmem)
    refine ⟨_ :: before, after, rfl, ?_⟩
    rw [← hplace, sizeSum_cons, Statement.size, hbytes, Nat.add_assoc]
  | @code l' i' rows ss _ ih =>
    obtain ⟨hoffset, -, -, hrest⟩ := hshows
    rcases List.mem_cons.mp hmem with heq | hmem
    · cases heq
      exact ⟨[], ss, rfl, hoffset.symm⟩
    · obtain ⟨hlength, e', hcoded, -⟩ := hrows _ List.mem_cons_self
      obtain ⟨before, after, rfl, hplace⟩ := ih (fun r hr => hrows r (List.mem_cons_of_mem _ hr))
        hrest hmem
      refine ⟨_ :: before, after, rfl, ?_⟩
      rw [← hplace, sizeSum_cons, hcoded.size, hlength, Nat.add_assoc]

/-- In an image of the statements, every operand that is shown by a name is read
as what the name stands for where it is shown. -/
theorem Relists.decoded (h : Relists labels rows ss) (hrows : ∀ r ∈ rows, r.Recoded labels)
    (hshows : Shows image 0 rows) {rule : NameRule} {image' : Image}
    (himage : imageFrom? rule [] 0 ss = some image'.toList) (hsize : image'.size < 2 ^ 32)
    {l : Layout} {i : Instruction} (hmem : .code l i ∈ rows) :
    ∃ i', Instruction.decode image' l = .ok i' ∧
      List.Forall₂ (fun d d' => ∀ name, Instruction.shownName? labels d = some name →
        rule.mentionedAddress? (rowDeclarations 0 rows) l.offset.toNat name = some d'.value)
        i.operands i'.operands := by
  obtain ⟨-, -, hdecl, -⟩ := h.placed hrows hshows
  obtain ⟨before, after, rfl, hplace⟩ := h.split hrows hshows hmem
  obtain ⟨-, e', hcoded, hlayout⟩ := hrows _ hmem
  obtain ⟨xs, bs, ys, hcode, hlen, hbs⟩ := imageFrom?_split himage
  rw [List.nil_append, Nat.zero_add] at hbs
  rw [Nat.zero_add] at hplace
  have haddress : rule.address? (declarationsFrom 0 before)
      (declarationsFrom (sizeSum before) (i.statement labels :: after)) =
      rule.mentionedAddress? (rowDeclarations 0 rows) l.offset.toNat := by
    rw [← hdecl, declarationsFrom_append, Nat.zero_add, ← hplace]
    refine rule.address?_eq_mentionedAddress? (fun d hd => ?_) fun d hd => ?_
    · simpa using (address_of_mem_declarationsFrom hd).2
    · have hbehind : d ∈ declarationsFrom (sizeSum before + (i.statement labels).size) after := hd
      have hle := (address_of_mem_declarationsFrom hbehind).1
      have hpos := e'.length_pos
      rw [hcoded.size, ← hcoded.length] at hle
      omega
  rw [haddress, Instruction.statement, Statement.bytes?, hcoded.encoded] at hbs
  have hbound : xs.length < 2 ^ 32 := by
    have hlength : image'.toList.length = image'.size := Array.length_toList
    rw [hcode, List.length_append] at hlength
    omega
  obtain ⟨ds, hdecode, hread⟩ := decode_bytes hcoded.encoded hbs hcode hbound
  rw [hlen, hplace, hlayout] at hdecode
  refine ⟨_, hdecode, (List.forall₂_map_left_iff.mp hread.operands).imp ?_⟩
  rintro d d' ⟨-, hvalue⟩ name hname
  rwa [Instruction.value?_shownForm hname] at hvalue

end Statements

end Listing

/-! ## 4. Programs -/

/-- The keywords of one opcode have the same numbers of operands. -/
theorem arities_eq {m : Mnemonic} {op : Opcode} (h : m.opcode? = some op) :
    Grammar.arities m = Grammar.arities (.op op) := by
  cases m with
  | op opcode => cases h; rfl
  | sizedMove size => cases h; rfl
  | _ => cases h

/-- Operands that were read name registers that are assigned, if those that were
written do. -/
theorem isAssigned_of_readBack {address? : String → Option UInt32} {operands : List Operand}
    {ds : List DecodedOperand}
    (h : List.Forall₂ (fun o d => o.form.class? = some d.operandClass ∧
      o.form.value? address? = some d.value) operands ds)
    (hregs : ∀ o ∈ operands, ∀ r, Encoding.registerOf? o.form = some r → r.isAssigned = true) :
    ∀ d ∈ ds, d.operandClass.usesRegister = true → d.register.isAssigned = true := by
  induction h with
  | nil => simp
  | @cons o d operands ds hd _ ih =>
    obtain ⟨hfirst, hrest⟩ := List.forall_mem_cons.mp hregs
    refine List.forall_mem_cons.mpr ⟨fun huses => ?_, ih hrest⟩
    obtain ⟨hclass, hvalue⟩ := hd
    have hregister : Encoding.registerOf? o.form = some d.register := by
      cases hform : o.form with
      | register r | indirectRegister r =>
        rw [hform] at hvalue
        have hnumber : r.number.toUInt32 = d.value := Option.some.inj hvalue
        simp [Encoding.registerOf?, DecodedOperand.register, ← hnumber]
      | text s | other tag => rw [hform] at hclass; cases hclass
      | immediate v | name label | indirectName label | indirectImmediate v =>
        rw [hform] at hclass
        rw [← Option.some.inj hclass] at huses
        cases huses
    exact hfirst _ hregister

/-- An instruction that was read back from one that can be written can be
written. -/
theorem listable_of_readBack {address? : String → Option UInt32} {m : Mnemonic}
    {operands : List Operand} {e : Encoding} {i : Instruction}
    (he : Encoding.of m operands = .ok e) (hds : ReadBack address? e operands i.operands)
    (hop : i.opcode = e.opcode) (harity : operands.length ∈ Grammar.arities m) : i.Listable := by
  obtain ⟨hm, hforms⟩ := Encoding.of_eq_ok he
  refine ⟨isAssigned_of_readBack hds.operands fun o ho r hr => ?_, ?_⟩
  · rcases hforms with ⟨rfl, -⟩ | ⟨mode, -, -, -, hregs, -⟩
    · cases ho
    · exact Encoding.isAssigned_of_badRegister? hregs ho hr
  · rwa [← hds.operands.length_eq, arities_eq i.opcode?_shownKeyword, hop, ← arities_eq hm]

namespace Listing

section Programs

variable {labels : Labels} {image : Image}

/-- The rows of a statement that was read and whose bytes stand in the image can
be listed and have the statement's bytes and labels. -/
theorem rowsOf_recoded {address? : String → Option UInt32} (hcover : labels.Cover address?)
    {s : Statement} {xs bytes ys : List UInt8} (hwritten : s.Written)
    (hbytes : s.bytes? address? = some bytes) (himage : image.toList = xs ++ (bytes ++ ys))
    (hbound : xs.length < 2 ^ 32) :
    (∀ r ∈ rowsOf image xs.length s, r.Recoded labels ∧ r.Listable) ∧
    (rowsOf image xs.length s).flatMap Row.bytes = bytes ∧
    rowDeclarations xs.length (rowsOf image xs.length s) = s.declarations xs.length := by
  cases s with
  | label name pos =>
    cases hbytes
    have hname : IsName name := hwritten
    refine ⟨by simpa [rowsOf, Row.Recoded, Row.Listable] using Or.inl hname, rfl, ?_⟩
    rw [rowsOf, rowDeclarations, labelAt, hname.isLocalName]
    rfl
  | localLabel name pos =>
    cases hbytes
    have hname : IsLocal name := hwritten
    refine ⟨by simpa [rowsOf, Row.Recoded, Row.Listable] using Or.inr hname, rfl, ?_⟩
    rw [rowsOf, rowDeclarations, labelAt, hname.isLocalName]
    rfl
  | data items pos =>
    rw [rowsOf_data (Statement.bytes?_data_eq_some_iff.mp hbytes)]
    refine ⟨fun r hr => ?_, flatMap_bytes_bytes bytes, rowDeclarations_bytes _ bytes⟩
    obtain ⟨b, -, rfl⟩ := List.mem_map.mp hr
    exact ⟨trivial, trivial⟩
  | instruction m operands pos =>
    obtain ⟨e, he, hbytes⟩ := Statement.bytes?_instruction_eq_some_iff.mp hbytes
    obtain ⟨ds, hdecode, hread⟩ := decode_bytes he hbytes himage hbound
    let i : Instruction := ⟨UInt32.ofNat xs.length, e.opcode, e.mode, e.size, ds, e.length⟩
    obtain ⟨hsame, e', hcoded, hlength, hwidths⟩ :=
      encoding_shown (i := i) he hread rfl rfl rfl hcover
    have hlayout : e'.layout (e.layout xs.length).offset.toNat = e.layout xs.length := by
      have hoffset : (e.layout xs.length).offset.toNat = xs.length :=
        UInt32.toNat_ofNat_of_lt hbound
      rw [hoffset, Encoding.layout, hlength, hwidths]
      rfl
    have hrow : (Row.code (e.layout xs.length) i).Recoded labels :=
      ⟨e.length_of_bytes? hsame, e', hcoded, hlayout⟩
    have hlistable : i.Listable := listable_of_readBack he hread rfl hwritten.1
    rw [rowsOf_instruction he hdecode]
    refine ⟨by simpa using ⟨hrow, hlistable⟩, ?_, rfl⟩
    rw [List.flatMap_singleton]
    exact Option.some.inj (hsame.symm.trans hbytes)
  | times count body pos => cases hbytes
  | bareTimes count pos => cases hbytes
  | other tag m operands pos => cases hbytes

/-- The rows of statements that were read can be listed and have the statements'
bytes and labels. -/
theorem rowsFrom_recoded {rule : NameRule} {earlier : List Declaration} {ss : List Statement}
    {xs bytes : List UInt8} (hwritten : ∀ s ∈ ss, s.Written)
    (hcover : ∀ before after, before ++ after = earlier ++ declarationsFrom xs.length ss →
      labels.Cover (rule.address? before after))
    (h : imageFrom? rule earlier xs.length ss = some bytes)
    (himage : image.toList = xs ++ bytes) (hsize : image.size < 2 ^ 32) :
    (∀ r ∈ rowsFrom image xs.length ss, r.Recoded labels ∧ r.Listable) ∧
    (rowsFrom image xs.length ss).flatMap Row.bytes = bytes ∧
    rowDeclarations xs.length (rowsFrom image xs.length ss) = declarationsFrom xs.length ss := by
  induction ss generalizing xs earlier bytes with
  | nil =>
    cases h
    exact ⟨by simp [rowsFrom], rfl, rfl⟩
  | cons s rest ih =>
    obtain ⟨hs, hrest⟩ := List.forall_mem_cons.mp hwritten
    obtain ⟨bs, tail, hbs, htail, rfl⟩ := joined?_eq_some h
    have hbound : xs.length < 2 ^ 32 := by
      have hlen : image.toList.length = image.size := Array.length_toList
      rw [himage, List.length_append] at hlen
      omega
    obtain ⟨hrows, hbytes, hdecl⟩ := rowsOf_recoded (hcover _ _ rfl) hs hbs himage hbound
    obtain ⟨hrowsSize, -⟩ := rowsOf_spec hbs himage hbound
    have hstep : (xs ++ bs).length = xs.length + s.size := by
      rw [List.length_append, s.length_of_bytes? hbs]
    rw [← hstep] at htail
    rw [← List.append_assoc] at himage
    have hcover' : ∀ before after, before ++ after =
        earlier ++ s.declarations xs.length ++ declarationsFrom (xs ++ bs).length rest →
        labels.Cover (rule.address? before after) := by
      intro before after hsplit
      rw [hstep, List.append_assoc] at hsplit
      exact hcover before after hsplit
    obtain ⟨hrows', hbytes', hdecl'⟩ := ih hrest hcover' htail himage
    rw [hstep] at hrows' hbytes' hdecl'
    refine ⟨fun r hr => ?_, ?_, ?_⟩
    · rcases List.mem_append.mp hr with hr | hr
      · exact hrows r hr
      · exact hrows' r hr
    · rw [rowsFrom, List.flatMap_append, hbytes, hbytes']
    · rw [rowsFrom, rowDeclarations_append, hdecl, hrowsSize, hdecl', declarationsFrom]

end Programs

end Listing

end RegAsm
