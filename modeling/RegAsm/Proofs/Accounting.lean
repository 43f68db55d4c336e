/-
RegAsm.Proofs.Accounting — what the lines of a listing stand for.

Each line of a listing has a place in the image: a label line stands in front
of the byte it names, a directive for the bytes it is read as, an instruction
line for the bytes the instruction is read from.  Line by line these bytes make
up the image, and at every place the labels are those that the map has there
(`disassemble_accounts`).  Lines of data alone give the data back when they are
assembled (`dataLines_assemble`).

1. Lines and their places.
2. The lines of rows.
3. Listings.
4. Data alone.
-/
import RegAsm.Proofs.Overlap
import RegAsm.Proofs.RoundTrip

namespace RegAsm

open Machine

namespace Listing

/-! ## 1. Lines and their places -/

/-- A line of a listing and what it is about. -/
inductive Line where
  | label (address : Nat) (name : String)
  | data (start : Nat) (d : Directive)
  | code (l : Layout) (i : Instruction)

namespace Line

/-- The offset that a line is about. -/
def start : Line → Nat
  | .label address _ => address
  | .data start _ => start
  | .code l _ => l.offset.toNat

/-- The bytes that a line stands for. -/
def bytes : Line → List UInt8
  | .label _ _ => []
  | .data _ d => d.bytes
  | .code _ i => i.bytes

/-- The line as it is written. -/
def text (labels : Labels) : Line → String
  | .label _ name => labelLine name
  | .data _ d => dataLine d.items
  | .code _ i => codeLine labels i

/-- The name of a label line for an address. -/
def nameAt? (a : Nat) : Line → Option String
  | .label address name => if address = a then some name else none
  | _ => none

end Line

/-- Lines of which each is about the place where the one before it ends, the
first about an address. -/
def Consecutive : Nat → List Line → Prop
  | _, [] => True
  | address, line :: rest =>
    line.start = address ∧ Consecutive (address + line.bytes.length) rest

theorem consecutive_append {address : Nat} {xs ys : List Line} :
    Consecutive address (xs ++ ys) ↔
      Consecutive address xs ∧ Consecutive (address + (xs.flatMap Line.bytes).length) ys := by
  induction xs generalizing address with
  | nil => simp [Consecutive]
  | cons line xs ih =>
    rw [List.cons_append, Consecutive, Consecutive, ih, List.flatMap_cons, List.length_append,
      Nat.add_assoc, and_assoc]

theorem Consecutive.le_start {address : Nat} {lines : List Line} (h : Consecutive address lines)
    {line : Line} (hline : line ∈ lines) : address ≤ line.start := by
  obtain ⟨before, after, rfl⟩ := List.append_of_mem hline
  have hstart := (consecutive_append.mp h).2.1
  omega

theorem Consecutive.stop_le {address : Nat} {lines : List Line} (h : Consecutive address lines)
    {line : Line} (hline : line ∈ lines) :
    line.start + line.bytes.length ≤ address + (lines.flatMap Line.bytes).length := by
  obtain ⟨before, after, rfl⟩ := List.append_of_mem hline
  have hstart := (consecutive_append.mp h).2.1
  rw [hstart, List.flatMap_append, List.flatMap_cons, List.length_append, List.length_append]
  omega

/-- Directives as lines, the first of them at an address. -/
def dataAt (address : Nat) : List Directive → List Line
  | [] => []
  | d :: ds => .data address d :: dataAt (address + d.bytes.length) ds

section DataAt

variable (address : Nat) (ds : List Directive)

theorem map_text_dataAt (labels : Labels) :
    (dataAt address ds).map (Line.text labels) = ds.map (dataLine ·.items) := by
  induction ds generalizing address with
  | nil => rfl
  | cons d ds ih => rw [dataAt, List.map_cons, ih, List.map_cons]; rfl

theorem flatMap_bytes_dataAt : (dataAt address ds).flatMap Line.bytes = ds.flatMap (·.bytes) := by
  induction ds generalizing address with
  | nil => rfl
  | cons d ds ih => rw [dataAt, List.flatMap_cons, ih, List.flatMap_cons]; rfl

theorem consecutive_dataAt : Consecutive address (dataAt address ds) := by
  induction ds generalizing address with
  | nil => exact trivial
  | cons d ds ih => exact ⟨rfl, ih _⟩

theorem filterMap_nameAt?_dataAt (a : Nat) :
    (dataAt address ds).filterMap (Line.nameAt? a) = [] := by
  induction ds generalizing address with
  | nil => rfl
  | cons d ds ih => rw [dataAt, List.filterMap_cons_none rfl, ih]

theorem code_notMem_dataAt (l : Layout) (i : Instruction) : .code l i ∉ dataAt address ds := by
  induction ds generalizing address with
  | nil => exact List.not_mem_nil
  | cons d ds ih => simpa [dataAt] using ih _

end DataAt

/-! ## 2. The lines of rows -/

/-- Lines that stand for the rows of an image from an address on. -/
structure Lines (image : Image) (labels : Labels) (address : Nat) (rows : List Row)
    (texts : List String) (lines : List Line) : Prop where
  texts : texts = lines.map (Line.text labels)
  consecutive : Consecutive address lines
  holds : HoldsAt image address (lines.flatMap Line.bytes)
  stop : address + (lines.flatMap Line.bytes).length = image.size
  code : ∀ l i, .code l i ∈ lines → .code l i ∈ rows
  names : ∀ a, lines.filterMap (Line.nameAt? a) = namesAt a address rows

section Rows

variable {image : Image} {labels : Labels} {address : Nat} {rows : List Row} {texts : List String}
  {lines : List Line}

theorem lines_nil (h : address = image.size) : Lines image labels address [] [] [] :=
  ⟨rfl, trivial, trivial, h, fun _ _ h => absurd h List.not_mem_nil, fun _ => rfl⟩

theorem Lines.label (h : Lines image labels address rows texts lines) (name : String) :
    Lines image labels address (.label name :: rows) (labelLine name :: texts)
      (.label address name :: lines) := by
  refine ⟨?_, ⟨rfl, h.consecutive⟩, h.holds, h.stop, fun l i hmem => ?_, fun a => ?_⟩
  · rw [List.map_cons, ← h.texts]
    rfl
  · rcases List.mem_cons.mp hmem with heq | hmem
    · cases heq
    · exact List.mem_cons_of_mem _ (h.code l i hmem)
  · rw [namesAt, ← h.names]
    by_cases ha : address = a <;> simp [Line.nameAt?, ha]

theorem Lines.instruction {l : Layout} {i : Instruction} (hoffset : l.offset.toNat = address)
    (hdecode : Instruction.decode image l = .ok i)
    (h : Lines image labels (address + i.length) rows texts lines) :
    Lines image labels address (.code l i :: rows) (codeLine labels i :: texts)
      (.code l i :: lines) := by
  obtain ⟨hanswers, hholds⟩ := Instruction.decode_eq_ok_iff.mp hdecode
  have hlength : (Line.code l i).bytes.length = i.length := hanswers.length.symm
  refine ⟨?_, ⟨hoffset, ?_⟩, ?_, ?_, fun l' i' hmem => ?_, fun a => ?_⟩
  · rw [List.map_cons, ← h.texts]
    rfl
  · rw [hlength]
    exact h.consecutive
  · rw [List.flatMap_cons, holdsAt_append, hlength]
    exact ⟨hoffset ▸ hholds, h.holds⟩
  · rw [List.flatMap_cons, List.length_append, hlength, ← Nat.add_assoc, h.stop]
  · rcases List.mem_cons.mp hmem with heq | hmem
    · cases heq
      exact List.mem_cons_self
    · exact List.mem_cons_of_mem _ (h.code l' i' hmem)
  · rw [namesAt, ← h.names]
    exact List.filterMap_cons_none rfl

/-- Data in front of other lines. -/
theorem exists_lines_data {waiting : List UInt8} (hwaiting : HoldsAt image address waiting)
    (h : Lines image labels (address + waiting.length) rows texts lines) :
    ∃ lines', Lines image labels address (waiting.map .byte ++ rows) (dataLines waiting ++ texts)
      lines' := by
  obtain ⟨ds, hlines, hbytes⟩ := directs_dataLines waiting
  have hdata := flatMap_bytes_dataAt address ds
  rw [hbytes] at hdata
  refine ⟨dataAt address ds ++ lines, ?_, ?_, ?_, ?_, ?_, fun a => ?_⟩
  · rw [List.map_append, map_text_dataAt, ← hlines, h.texts]
  · rw [consecutive_append, hdata]
    exact ⟨consecutive_dataAt address ds, h.consecutive⟩
  · rw [List.flatMap_append, holdsAt_append, hdata]
    exact ⟨hwaiting, h.holds⟩
  · rw [List.flatMap_append, List.length_append, hdata, ← Nat.add_assoc, h.stop]
  · intro l i hmem
    rcases List.mem_append.mp hmem with hmem | hmem
    · exact absurd hmem (code_notMem_dataAt address ds l i)
    · exact List.mem_append_right _ (h.code l i hmem)
  · rw [List.filterMap_append, filterMap_nameAt?_dataAt, h.names, namesAt_append, namesAt_bytes,
      rowsSize_bytes]

/-- Rows are written as lines that stand for them.  Some bytes in front of them
are not written yet. -/
theorem exists_lines {waiting : List UInt8} (hwaiting : HoldsAt image address waiting)
    (hshows : Shows image (address + waiting.length) rows) :
    ∃ lines, Lines image labels address (waiting.map .byte ++ rows) (linesOf labels waiting rows)
      lines := by
  induction rows generalizing address waiting with
  | nil =>
    have hend := exists_lines_data hwaiting (@lines_nil image labels _ hshows)
    rwa [List.append_nil (dataLines waiting)] at hend
  | cons r rows ih =>
    cases r with
    | label name =>
      obtain ⟨lines, h⟩ := @ih (address + waiting.length) [] trivial hshows
      exact exists_lines_data hwaiting (h.label name)
    | byte b =>
      have hlength : address + (waiting ++ [b]).length = address + waiting.length + 1 := by
        rw [List.length_append, ← Nat.add_assoc]
        rfl
      obtain ⟨lines, h⟩ := @ih address (waiting ++ [b])
        (holdsAt_append.mpr ⟨hwaiting, hshows.1, trivial⟩) (hlength ▸ hshows.2)
      rw [List.map_append, List.append_assoc] at h
      exact ⟨lines, h⟩
    | code l i =>
      obtain ⟨hoffset, hdecode, -, hrest⟩ := hshows
      obtain ⟨lines, h⟩ := @ih (address + waiting.length + i.length) [] trivial hrest
      exact exists_lines_data hwaiting (h.instruction hoffset hdecode)

end Rows

/-! ## 3. Listings -/

/-- What the lines of a listing come to. -/
structure Accounts (image : Image) (layouts : List Layout) (labels : Labels) (lines : List Line) :
    Prop where
  /-- The bytes of the lines, one behind the other, are those of the image. -/
  bytes : lines.flatMap Line.bytes = image.toList
  /-- A line is about the place where the lines in front of it end. -/
  place : ∀ before line after, lines = before ++ line :: after →
    line.start = (before.flatMap Line.bytes).length
  /-- An instruction is the one that is read at one of the layouts. -/
  code : ∀ l i, .code l i ∈ lines → l ∈ layouts ∧ Instruction.decode image l = .ok i
  /-- The label lines for an address are the names that the map has there. -/
  names : ∀ a, a ≤ image.size → lines.filterMap (Line.nameAt? a) = labels.names (UInt32.ofNat a)
  /-- A label line stands behind the lines for lower addresses and in front of
  the lines for bytes at its address or above. -/
  order : ∀ before a name after, lines = before ++ .label a name :: after → a ≤ image.size ∧
    (∀ line ∈ before, line.start + line.bytes.length ≤ a) ∧ ∀ line ∈ after, a ≤ line.start

variable {image : Image} {layouts : List Layout} {labels : Labels} {rows : List Row}
  {texts : List String} {lines : List Line}

/-- Lines that stand for the rows of a listing account for its image. -/
theorem Lists.accounts {sorted unread : List Layout} (horder : InOrder layouts sorted)
    (h : Lists image layouts sorted labels rows unread)
    (hlines : Lines image labels 0 rows texts lines) : Accounts image layouts labels lines := by
  have htotal : (lines.flatMap Line.bytes).length = image.size := by
    simpa using hlines.stop
  have hplace : ∀ before line after, lines = before ++ line :: after →
      line.start = (before.flatMap Line.bytes).length := by
    rintro before line after rfl
    simpa using (consecutive_append.mp hlines.consecutive).2.1
  refine ⟨hlines.holds.eq_toList htotal, hplace, fun l i hmem => ?_, fun a ha => ?_, ?_⟩
  · have hrow := hlines.code l i hmem
    have hl : l ∈ rows.filterMap Row.layout? := List.mem_filterMap.mpr ⟨_, hrow, rfl⟩
    exact ⟨(h.perm horder).mem_iff.mpr (List.mem_append_left _ hl), h.shows.decode hrow⟩
  · rw [hlines.names, ← h.names a ha]
    rfl
  · rintro before a name after rfl
    have ha : a = (before.flatMap Line.bytes).length := hplace before (.label a name) after rfl
    obtain ⟨hbefore, -, hafter⟩ := consecutive_append.mp hlines.consecutive
    refine ⟨?_, fun line hline => ?_, fun line hline => ?_⟩
    · rw [List.flatMap_append, List.length_append] at htotal
      omega
    · have hstop := hbefore.stop_le hline
      omega
    · have hstart := hafter.le_start hline
      have hnone : (Line.label a name).bytes.length = 0 := rfl
      omega

end Listing

open Listing

/-- A listing accounts for every byte and every label.  Its lines stand for the
bytes of the image, one behind the other: directives for the bytes they are read
as, instructions for the bytes they are read from.  The labels that the map has
at an address, and no others, are its label lines for that address, in the same
order, between the lines for the bytes below and those for the bytes above. -/
theorem disassemble_accounts {image : Image} {layouts : List Layout} {labels : Labels}
    {text : String} (hasc : Labels.Ascending labels.groups) (hsize : image.size < 2 ^ 32)
    (h : disassemble image layouts labels = .ok text) :
    ∃ lines, text = String.join (lines.map (Line.text labels)) ∧
      Accounts image layouts labels lines := by
  have horder := inOrder_byOffset layouts
  obtain ⟨rows, unread, hlists, rfl⟩ := exists_rows_of_disassembleInOrder hasc hsize horder h
  obtain ⟨lines, hlines⟩ := @exists_lines image labels 0 rows [] trivial hlists.shows
  exact ⟨lines, by rw [← hlines.texts], hlists.accounts horder hlines⟩

/-- Two instructions with a string and another byte between them. -/
def greeting : Image := #[0x3C, 0x68, 0x65, 0x6C, 0x6C, 0x6F, 0, 7, 0x3C]

/-- Labels at the start, inside the data, twice at one place, at the end and
behind it. -/
def greetingLabels : Labels :=
  .ofSymbols [⟨"start", 0⟩, ⟨"x", 8⟩, ⟨"text", 1⟩, ⟨"y", 8⟩, ⟨".seven", 7⟩, ⟨"far", 10⟩, ⟨"end", 9⟩]

theorem disassemble_accounts_greeting :
    disassemble greeting [⟨8, 1, []⟩, ⟨0, 0, []⟩] greetingLabels =
        .ok ("start:\n    hlt\ntext:\n    db       \"hello\", $00\n" ++
          ".seven:\n    db       $07\nx:\ny:\n    hlt\nend:\n") ∧
      ∃ lines, Accounts greeting [⟨8, 1, []⟩, ⟨0, 0, []⟩] greetingLabels lines := by
  have htext : disassemble greeting [⟨8, 1, []⟩, ⟨0, 0, []⟩] greetingLabels =
      .ok ("start:\n    hlt\ntext:\n    db       \"hello\", $00\n" ++
        ".seven:\n    db       $07\nx:\ny:\n    hlt\nend:\n") := by
    decide +kernel
  obtain ⟨lines, -, haccounts⟩ :=
    disassemble_accounts (Labels.ascending_ofSymbols _) (by decide) htext
  exact ⟨htext, lines, haccounts⟩

/-! ## 4. Data alone -/

/-- Data written as directives are assembled to the data, with no instruction
and no label. -/
theorem dataLines_assemble (data : Image) (hsize : data.size < 2 ^ 32) (a : Assembler) :
    ∃ a', a.assemble (String.join (dataLines data.toList)) = (.ok data, a') ∧
      a'.layouts = [] ∧ a'.symbols = [] := by
  obtain ⟨ss, hspell, hrelists⟩ := listsBytes_dataLines data.toList
  have hbytes : ∀ r ∈ data.toList.map Row.byte, r.Recoded ⟨[]⟩ := by
    intro r hr
    obtain ⟨b, -, rfl⟩ := List.mem_map.mp hr
    exact trivial
  have hshows : Shows data 0 (data.toList.map Row.byte) := by
    have hall := @shows_bytes data [] data.toList [] (by simp) [] (by simp [Shows])
    rwa [List.append_nil] at hall
  obtain ⟨program, hparse, hencodable, hsum, hdecl, hlay, hpass⟩ :=
    (hrelists ⟨[]⟩).program hspell hbytes hshows
  obtain ⟨himage, -⟩ := (hrelists ⟨[]⟩).image_iff hbytes hshows deferredRule
    (List.nil_append _).symm fun d hd => nomatch hd
  have hcode : ∀ l i, Row.code l i ∉ data.toList.map Row.byte := by simp
  have hall := himage.mpr fun l i hmem => absurd hmem (hcode l i)
  rw [← hpass, flatMap_bytes_bytes] at hall
  rw [rowDeclarations_bytes] at hdecl
  rw [← hsum] at hsize
  obtain ⟨hlayouts, hdeclared, hok, -⟩ :=
    assembleProgram_outcome hencodable (by rw [hdecl]; exact List.nodup_nil) hsize
  refine ⟨⟨(assembleProgram program).2.following a.last.events⟩, ?_, ?_, ?_⟩
  · rw [Assembler.assemble_of_parse hparse, Assembler.assembleProgram_eq_first, hok _ hall]
    rfl
  · show (assembleProgram program).2.layouts.toList = []
    rw [hlayouts, hlay, List.filterMap_map]
    exact List.filterMap_eq_nil_iff.mpr fun b _ => rfl
  · show (assembleProgram program).2.declared.toList = []
    rw [hdeclared, hdecl]
    rfl

/-- A quoted string with its zero, a string without one, a short run between
other bytes and more of them than a line holds. -/
def mixedRuns : Image :=
  #[0x22, 0x5C, 0x27, 0x3B, 0, 0, 0x41, 0x42, 0x43, 0xFF, 0x64, 0x61, 0x74, 0x61,
    1, 2, 3, 4, 5, 6, 7, 8, 9, 10, 11, 12, 13, 14, 15, 16, 17]

theorem dataLines_assemble_mixedRuns :
    String.join (dataLines mixedRuns.toList) =
        "    db       \"\\\"\\\\\\';\", $00\n    db       $00\n    db       $41, $42, $43\n" ++
        "    db       $FF\n    db       \"data\"\n    db       $01, $02, $03, $04, $05, $06, " ++
        "$07, $08, $09, $0A, $0B, $0C, $0D, $0E, $0F, $10\n    db       $11\n" ∧
      mixedRuns.size < 2 ^ 32 ∧
      ∃ a', ({} : Assembler).assemble (String.join (dataLines mixedRuns.toList)) =
          (.ok mixedRuns, a') ∧
        a'.layouts = [] ∧ a'.symbols = [] :=
  ⟨by decide +kernel, by decide, dataLines_assemble mixedRuns (by decide) {}⟩

end RegAsm
