/-
RegAsm.Proofs.Overlap — which layouts a listing accepts.

A listing that succeeds shows rows whose instructions lie one behind the other,
so two layouts of overlapping code are not both shown.  Layouts are taken in
order of offset, and each must start where the instruction in front of it has
ended, or later.  But a listing ends where the image ends: layouts that come
behind the instruction that ends the image are not looked at any more, though
they lie inside it.  Layouts at one offset can be sorted in any order, and it may
depend on that order which of them is looked at.  `disassembleInOrder_eq_ok_iff`
says for every order exactly when there is a listing, and which layouts it shows.

1. Layouts in order.
2. Rows between two instructions.
3. From lines to rows.
4. Listings.
-/
import Mathlib
import RegAsm.Proofs.Footprint

namespace RegAsm

open Machine

namespace Listing

/-! ## 1. Layouts in order -/

/-- Putting layouts in order is a sort by insertion. -/
theorem byOffset_eq_insertionSort (layouts : List Layout) :
    byOffset layouts = layouts.insertionSort (·.offset ≤ ·.offset) := by
  have hinsert : ∀ (l : Layout) (ls : List Layout),
      insertLayout l ls = ls.orderedInsert (·.offset ≤ ·.offset) l := by
    intro l ls
    induction ls with
    | nil => rfl
    | cons l' rest ih => simp [insertLayout, ih]
  induction layouts with
  | nil => rfl
  | cons l rest ih =>
    have hstep : byOffset (l :: rest) = insertLayout l (byOffset rest) := rfl
    rw [hstep, hinsert, ih, List.insertionSort_cons]

theorem perm_byOffset (layouts : List Layout) : (byOffset layouts).Perm layouts := by
  rw [byOffset_eq_insertionSort]
  exact List.perm_insertionSort _ layouts

theorem pairwise_byOffset (layouts : List Layout) :
    (byOffset layouts).Pairwise (·.offset ≤ ·.offset) := by
  have : Std.Total fun a b : Layout => a.offset ≤ b.offset :=
    ⟨fun a b => UInt32.le_total a.offset b.offset⟩
  have : IsTrans Layout fun a b => a.offset ≤ b.offset := ⟨fun a b c => UInt32.le_trans⟩
  rw [byOffset_eq_insertionSort]
  exact List.pairwise_insertionSort _ layouts

/-- Layouts as a sort by offset may leave them: those at one offset stand in any
order. -/
structure InOrder (layouts sorted : List Layout) : Prop where
  perm : sorted.Perm layouts
  ascending : sorted.Pairwise (·.offset ≤ ·.offset)

theorem inOrder_byOffset (layouts : List Layout) : InOrder layouts (byOffset layouts) :=
  ⟨perm_byOffset layouts, pairwise_byOffset layouts⟩

/-! ## 2. Rows between two instructions -/

section Rows

variable {image : Image} {names : Nat → List String}

theorem rowsSize_labels (names : List String) : rowsSize (names.map .label) = 0 := by
  induction names with
  | nil => rfl
  | cons name names ih => rw [List.map_cons, rowsSize_cons, ih]; rfl

theorem filterMap_layout_labels (names : List String) :
    (names.map Row.label).filterMap Row.layout? = [] := by
  rw [List.filterMap_map]
  exact List.filterMap_eq_nil_iff.mpr fun _ _ => rfl

theorem namesAt_labels (a start : Nat) (names : List String) :
    namesAt a start (names.map .label) = if start = a then names else [] := by
  induction names with
  | nil => simp [namesAt]
  | cons name names ih =>
    rw [List.map_cons, namesAt, ih]
    by_cases h : start = a <;> simp [h]

theorem shows_labels (address : Nat) (names : List String) (rest : List Row) :
    Shows image address (names.map .label ++ rest) ↔ Shows image address rest := by
  induction names with
  | nil => exact Iff.rfl
  | cons name names ih => exact ih

theorem rowsSize_dataRows (start n : Nat) : rowsSize (dataRows image names start n) = n := by
  induction n generalizing start with
  | zero => exact rowsSize_labels _
  | succ n ih =>
    rw [dataRows, rowsSize_append, rowsSize_labels, rowsSize_cons, ih, Row.size]
    omega

theorem filterMap_layout_dataRows (start n : Nat) :
    (dataRows image names start n).filterMap Row.layout? = [] := by
  induction n generalizing start with
  | zero => exact filterMap_layout_labels _
  | succ n ih =>
    rw [dataRows, List.filterMap_append, filterMap_layout_labels, List.nil_append,
      List.filterMap_cons_none rfl, ih]

/-- The labels among the rows are those that were put there. -/
theorem namesAt_dataRows {start n a : Nat} (hlow : start ≤ a) (hhigh : a ≤ start + n) :
    namesAt a start (dataRows image names start n) = names a := by
  induction n generalizing start with
  | zero =>
    have ha : start = a := by omega
    rw [dataRows, namesAt_labels, if_pos ha, ha]
  | succ n ih =>
    rw [dataRows, namesAt_append, namesAt_labels, rowsSize_labels, Nat.add_zero, namesAt]
    by_cases ha : start = a
    · rw [if_pos ha, namesAt_of_lt (by omega), List.append_nil, ha]
    · rw [if_neg ha, ih (by omega) (by omega), List.nil_append]

theorem shows_dataRows {start n : Nat} (hstop : start + n ≤ image.size) {rest : List Row}
    (hrest : Shows image (start + n) rest) :
    Shows image start (dataRows image names start n ++ rest) := by
  induction n generalizing start with
  | zero => exact (shows_labels _ _ _).mpr hrest
  | succ n ih =>
    rw [dataRows, List.append_assoc, shows_labels, List.cons_append]
    refine ⟨?_, ih (by omega) ?_⟩
    · rw [getElem!_pos image start (by omega)]
      exact Array.getElem?_eq_getElem (by omega)
    · rwa [Nat.add_assoc, Nat.add_comm 1]

end Rows

/-- The bytes that a row's instruction takes. -/
def Row.range? : Row → Option (Nat × Nat)
  | .code l i => some (l.offset.toNat, l.offset.toNat + i.length)
  | _ => none

/-- Instructions among rows lie one behind the other. -/
theorem Shows.apart {image : Image} {address : Nat} {rows : List Row}
    (h : Shows image address rows) :
    (rows.filterMap Row.range?).Pairwise (fun a b => a.2 ≤ b.1) ∧
      ∀ range ∈ rows.filterMap Row.range?, address ≤ range.1 := by
  induction rows generalizing address with
  | nil => exact ⟨List.Pairwise.nil, nofun⟩
  | cons r rows ih =>
    cases r with
    | label name => exact ih h
    | byte b =>
      obtain ⟨hrest, hbehind⟩ := ih h.2
      exact ⟨hrest, fun range hrange => Nat.le_of_succ_le (hbehind range hrange)⟩
    | code l i =>
      obtain ⟨hoffset, -, -, hshows⟩ := h
      obtain ⟨hrest, hbehind⟩ := ih hshows
      have hcons : (Row.code l i :: rows).filterMap Row.range? =
          (l.offset.toNat, l.offset.toNat + i.length) :: rows.filterMap Row.range? := rfl
      rw [hcons]
      refine ⟨List.pairwise_cons.mpr ⟨fun range hrange => ?_, hrest⟩, fun range hrange => ?_⟩
      · exact hoffset ▸ hbehind range hrange
      · rcases List.mem_cons.mp hrange with rfl | hrange
        · exact Nat.le_of_eq hoffset.symm
        · exact Nat.le_trans (Nat.le_add_right _ _) (hbehind range hrange)

/-! ## 3. From lines to rows -/

section Lines

variable {image : Image} {labels : Labels}

/-- What happens at a layout: the image has ended, or the layout's instruction is
written behind the data in front of it. -/
theorem linesOnto_cons_eq_ok_iff {done lines : Array String} {start : Nat} {l : Layout}
    {rest : List Layout} :
    linesOnto image labels done start (l :: rest) = .ok lines ↔
      (image.size ≤ start ∧ lines = done ++ labelLines labels image.size) ∨
      (start < image.size ∧ start ≤ l.offset.toNat ∧ ∃ i, Instruction.decode image l = .ok i ∧
        labels.firstBetween? l.offset.toNat (l.offset.toNat + i.length) = none ∧
        linesOnto image labels ((done ++ regionLines image labels start l.offset.toNat ++
          labelLines labels l.offset.toNat).push (codeLine labels i))
          (l.offset.toNat + i.length) rest = .ok lines) := by
  rw [linesOnto]
  by_cases hend : image.size ≤ start
  · have hnot : ¬ start < image.size := Nat.not_lt.mpr hend
    simp [hend, hnot, eq_comm]
  · have hlt : start < image.size := Nat.lt_of_not_le hend
    by_cases hoverlap : l.offset.toNat < start
    · have hnot : ¬ start ≤ l.offset.toNat := Nat.not_le.mpr hoverlap
      simp [hend, hoverlap, hnot]
    · have hle : start ≤ l.offset.toNat := Nat.le_of_not_lt hoverlap
      simp only [hend, if_false, hoverlap, false_and, false_or, hlt, hle, true_and]
      cases hdecode : Instruction.decode image l with
      | error e => simp
      | ok i =>
        cases hinside : labels.firstBetween? l.offset.toNat (l.offset.toNat + i.length) with
        | some label => simp [hinside]
        | none => simp [hinside, codeLine]

/-- Layouts behind the instruction that ends the image are not looked at. -/
theorem linesOnto_append_unread {ls : List Layout} {l : Layout} {i : Instruction}
    (hdecode : Instruction.decode image l = .ok i)
    (hstop : l.offset.toNat + i.length = image.size) (unread : List Layout) {start : Nat}
    {done lines : Array String} (h : linesOnto image labels done start (ls ++ [l]) = .ok lines) :
    linesOnto image labels done start (ls ++ l :: unread) = .ok lines := by
  induction ls generalizing start done with
  | nil =>
    rw [List.nil_append, linesOnto_cons_eq_ok_iff] at h ⊢
    refine h.imp id ?_
    rintro ⟨hlt, hle, i', hdecode', hinside, hlines⟩
    refine ⟨hlt, hle, i', hdecode', hinside, ?_⟩
    rw [hdecode] at hdecode'
    cases hdecode'
    rw [hstop] at hlines ⊢
    cases unread with
    | nil => exact hlines
    | cons l' rest =>
      refine linesOnto_cons_eq_ok_iff.mpr (.inl ⟨Nat.le_refl _, ?_⟩)
      simpa [linesOnto, regionLines, eq_comm] using hlines
  | cons l' rest ih =>
    rw [List.cons_append, linesOnto_cons_eq_ok_iff] at h ⊢
    refine h.imp id ?_
    rintro ⟨hlt, hle, i', hdecode', hinside, hlines⟩
    exact ⟨hlt, hle, i', hdecode', hinside, ih hlines⟩

/-- Rows that end with an instruction, labels aside. -/
def EndsInCode (rows : List Row) : Prop :=
  ∃ (front : List Row) (l : Layout) (i : Instruction) (names : List String),
    rows = front ++ .code l i :: names.map .label

/-- Layouts of which lines were made are those of rows, but for some behind the
instruction that ends the image. -/
theorem exists_rows_of_linesOnto (hsize : image.size < 2 ^ 32) {ls : List Layout} {start : Nat}
    {done lines : Array String} (hstart : start ≤ image.size)
    (h : linesOnto image labels done start ls = .ok lines) :
    ∃ rows unread, Shows image start rows ∧
      (∀ a, start ≤ a → a ≤ image.size → nameList labels a = namesAt a start rows) ∧
      ls = rows.filterMap Row.layout? ++ unread ∧
      (unread ≠ [] → (∃ names : List String, rows = names.map .label) ∨ EndsInCode rows) := by
  induction ls generalizing start done with
  | nil =>
    refine ⟨dataRows image (nameList labels) start (image.size - start), [], ?_, ?_, ?_, nofun⟩
    · have hshows := @shows_dataRows image (nameList labels) start (image.size - start)
        (by omega) [] (Nat.add_sub_of_le hstart)
      rwa [List.append_nil] at hshows
    · intro a hlow hhigh
      rw [namesAt_dataRows hlow (by omega)]
    · rw [filterMap_layout_dataRows, List.append_nil]
  | cons l rest ih =>
    rcases linesOnto_cons_eq_ok_iff.mp h with ⟨hend, -⟩ | ⟨-, hle, i, hdecode, hinside, hlines⟩
    · have hstop : start = image.size := Nat.le_antisymm hstart hend
      refine ⟨(nameList labels start).map .label, l :: rest, ?_, ?_, ?_, fun _ => .inl ⟨_, rfl⟩⟩
      · rw [← List.append_nil ((nameList labels start).map Row.label), shows_labels]
        exact hstop
      · intro a hlow hhigh
        have ha : start = a := by omega
        rw [namesAt_labels, if_pos ha, ha]
      · rw [filterMap_layout_labels, List.nil_append]
    · obtain ⟨hpos, hbound⟩ := Instruction.decode_inside hdecode
      obtain ⟨rows, unread, hshows, hnames, hrest, hunread⟩ := ih hbound hlines
      have hgap : start + (l.offset.toNat - start) = l.offset.toNat := Nat.add_sub_of_le hle
      refine ⟨dataRows image (nameList labels) start (l.offset.toNat - start) ++ .code l i :: rows,
        unread, ?_, ?_, ?_, ?_⟩
      · refine shows_dataRows (by omega) ?_
        rw [hgap]
        exact ⟨rfl, hdecode, hpos, hshows⟩
      · intro a hlow hhigh
        rw [namesAt_append, rowsSize_dataRows, hgap, namesAt]
        by_cases hfront : a ≤ l.offset.toNat
        · rw [namesAt_dataRows hlow (by omega), namesAt_of_lt (by omega), List.append_nil]
        · rw [namesAt_of_gt (by rw [rowsSize_dataRows]; omega), List.nil_append]
          by_cases hbehind : l.offset.toNat + i.length ≤ a
          · exact hnames a hbehind hhigh
          · have ha : (UInt32.ofNat a).toNat = a :=
              UInt32.toNat_ofNat_of_lt' (by simp only [UInt32.size]; omega)
            rw [namesAt_of_lt (by omega), nameList]
            exact Labels.names_of_firstBetween? hinside (by omega) (by omega)
      · rw [List.filterMap_append, filterMap_layout_dataRows, List.nil_append, hrest]
        rfl
      · intro hne
        right
        rcases hunread hne with ⟨names, rfl⟩ | ⟨front, l', i', names, rfl⟩
        · exact ⟨_, l, i, names, rfl⟩
        · refine ⟨dataRows image (nameList labels) start (l.offset.toNat - start) ++
            .code l i :: front, l', i', names, ?_⟩
          simp

end Lines

/-! ## 4. Listings -/

/-- Rows that a listing shows, and layouts that it does not look at. -/
structure Lists (image : Image) (layouts sorted : List Layout) (labels : Labels)
    (rows : List Row) (unread : List Layout) : Prop where
  inside : ∀ l ∈ layouts, l.offset.toNat < image.size ∧ l.stop.toNat ≤ image.size
  shows : Shows image 0 rows
  names : ∀ a, a ≤ image.size → nameList labels a = namesAt a 0 rows
  sorted : sorted = rows.filterMap Row.layout? ++ unread
  ends : unread ≠ [] → EndsInCode rows

theorem outside?_eq_none_iff {total : Nat} {layouts : List Layout} :
    outside? total layouts = none ↔
      ∀ l ∈ layouts, l.offset.toNat < total ∧ l.stop.toNat ≤ total := by
  simp [outside?, List.find?_eq_none]

section Lists

variable {image : Image} {layouts sorted : List Layout} {labels : Labels} {rows : List Row}
  {unread : List Layout}

theorem Lists.perm (h : Lists image layouts sorted labels rows unread)
    (horder : InOrder layouts sorted) : layouts.Perm (rows.filterMap Row.layout? ++ unread) :=
  h.sorted ▸ horder.perm.symm

theorem layouts_of_endsInCode (front : List Row) (l : Layout) (i : Instruction)
    (names : List String) :
    (front ++ Row.code l i :: names.map Row.label).filterMap Row.layout? =
      front.filterMap Row.layout? ++ [l] := by
  have hcode : (Row.code l i :: names.map Row.label).filterMap Row.layout? =
      l :: (names.map Row.label).filterMap Row.layout? := rfl
  rw [List.filterMap_append, hcode, filterMap_layout_labels]

theorem Shows.end_of_endsInCode {front : List Row} {l : Layout} {i : Instruction}
    {names : List String} {address : Nat}
    (h : Shows image address (front ++ Row.code l i :: names.map Row.label)) :
    l.offset.toNat + i.length = image.size := by
  obtain ⟨hoffset, -, -, hrest⟩ := h.behind
  have hsize := hrest.size
  rw [rowsSize_labels] at hsize
  omega

/-- What is not looked at starts inside the instruction that ends the image. -/
theorem Lists.unread_inside (h : Lists image layouts sorted labels rows unread)
    (horder : InOrder layouts sorted) {l : Layout} (hl : l ∈ unread) :
    ∃ l' i, Row.code l' i ∈ rows ∧ l'.offset.toNat ≤ l.offset.toNat ∧
      l.offset.toNat < l'.offset.toNat + i.length ∧ l'.offset.toNat + i.length = image.size := by
  obtain ⟨front, l', i, names, rfl⟩ := h.ends (List.ne_nil_of_mem hl)
  have hsorted := horder.ascending
  rw [h.sorted, layouts_of_endsInCode, List.pairwise_append] at hsorted
  have hle := UInt32.le_iff_toNat_le.mp (hsorted.2.2 l' (by simp) l hl)
  have hend := h.shows.end_of_endsInCode
  have hlt := (h.inside l ((h.perm horder).mem_iff.mpr (List.mem_append_right _ hl))).1
  exact ⟨l', i, by simp, hle, by omega, hend⟩

/-- The lines of a listing are those of its rows. -/
theorem Lists.lines (hasc : Labels.Ascending labels.groups) (hsize : image.size < 2 ^ 32)
    (h : Lists image layouts sorted labels rows unread) :
    ∃ lines, linesOnto image labels #[] 0 sorted = .ok lines ∧
      lines.toList = linesOf labels [] rows := by
  have hrows := @linesOnto_eq image labels hasc hsize 0 [] rows #[] (by simp) h.shows
    fun a _ ha => h.names a ha
  cases hlines : linesOnto image labels #[] 0 (rows.filterMap Row.layout?) with
  | error e => simp [hlines, Except.map] at hrows
  | ok lines =>
    refine ⟨lines, ?_, by simpa [hlines, Except.map] using hrows⟩
    rw [h.sorted]
    by_cases hunread : unread = []
    · rw [hunread, List.append_nil, hlines]
    · obtain ⟨front, l, i, names, rfl⟩ := h.ends hunread
      have hdecode := h.shows.decode (by simp : Row.code l i ∈ _)
      rw [layouts_of_endsInCode] at hlines ⊢
      rw [List.append_assoc, List.singleton_append]
      exact linesOnto_append_unread hdecode h.shows.end_of_endsInCode unread hlines

/-- A listing shows rows. -/
theorem exists_lists (hsize : image.size < 2 ^ 32) (horder : InOrder layouts sorted)
    (hinside : ∀ l ∈ layouts, l.offset.toNat < image.size ∧ l.stop.toNat ≤ image.size)
    {lines : Array String} (h : linesOnto image labels #[] 0 sorted = .ok lines) :
    ∃ rows unread, Lists image layouts sorted labels rows unread := by
  obtain ⟨rows, unread, hshows, hnames, hsorted, hends⟩ :=
    exists_rows_of_linesOnto hsize (Nat.zero_le _) h
  refine ⟨rows, unread, hinside, hshows, fun a ha => hnames a (Nat.zero_le a) ha, hsorted,
    fun hne => ?_⟩
  rcases hends hne with ⟨names, rfl⟩ | hcode
  · -- Rows of labels alone show an empty image, which no layout lies in.
    obtain ⟨l, hl⟩ := List.exists_mem_of_ne_nil unread hne
    have hmem : l ∈ sorted := hsorted ▸ List.mem_append_right _ hl
    have hlt := (hinside l (horder.perm.mem_iff.mp hmem)).1
    have htotal := hshows.size
    rw [rowsSize_labels] at htotal
    omega
  · exact hcode

end Lists

end Listing

open Listing

section Disassemble

variable {image : Image} {layouts sorted : List Layout} {labels : Labels}

theorem Listing.Lists.text_eq (hasc : Labels.Ascending labels.groups)
    (hsize : image.size < 2 ^ 32) {rows : List Row} {unread : List Layout}
    (h : Lists image layouts sorted labels rows unread) :
    disassembleInOrder image layouts sorted labels =
      .ok (String.join (linesOf labels [] rows)) := by
  obtain ⟨lines, hlines, htext⟩ := h.lines hasc hsize
  rw [disassembleInOrder, outside?_eq_none_iff.mpr h.inside]
  simp [hlines, Except.map, htext]

/-- A text is the listing of some rows. -/
theorem exists_rows_of_disassembleInOrder (hasc : Labels.Ascending labels.groups)
    (hsize : image.size < 2 ^ 32) (horder : InOrder layouts sorted) {text : String}
    (h : disassembleInOrder image layouts sorted labels = .ok text) :
    ∃ rows unread, Lists image layouts sorted labels rows unread ∧
      text = String.join (linesOf labels [] rows) := by
  have hread := h
  rw [disassembleInOrder] at h
  split at h
  · cases h
  · rename_i houtside
    cases hlines : linesOnto image labels #[] 0 sorted with
    | error e => simp [hlines, Except.map] at h
    | ok lines =>
      obtain ⟨rows, unread, hrows⟩ :=
        exists_lists hsize horder (outside?_eq_none_iff.mp houtside) hlines
      have hagain := hrows.text_eq hasc hsize
      rw [hread, Except.ok.injEq] at hagain
      exact ⟨rows, unread, hrows, hagain⟩

end Disassemble

/-- When there is a listing of an image shorter than 2 ^ 32 bytes, and what it
shows, for every order in which a sort by offset may leave the layouts.  The
layouts lie in the image, and in that order they are those of rows that show the
image with all labels in front of its rows, but for some layouts behind the
instruction that ends the image.  The instructions of the rows do not overlap and
each is one line of the text; a layout that is not shown starts inside the
instruction that ends the image. -/
theorem disassembleInOrder_eq_ok_iff {image : Image} {layouts sorted : List Layout}
    {labels : Labels} (hasc : Labels.Ascending labels.groups) (hsize : image.size < 2 ^ 32)
    (horder : InOrder layouts sorted) :
    (∀ text, disassembleInOrder image layouts sorted labels = .ok text ↔
      ∃ rows unread, Lists image layouts sorted labels rows unread ∧
        text = String.join (linesOf labels [] rows)) ∧
    ∀ rows unread, Lists image layouts sorted labels rows unread →
      (rows.filterMap Row.range?).Pairwise (fun a b => a.2 ≤ b.1) ∧
      layouts.Perm (rows.filterMap Row.layout? ++ unread) ∧
      ∀ l ∈ unread, ∃ l' i, Row.code l' i ∈ rows ∧ l'.offset.toNat ≤ l.offset.toNat ∧
        l.offset.toNat < l'.offset.toNat + i.length ∧
        l'.offset.toNat + i.length = image.size := by
  refine ⟨fun text => ⟨exists_rows_of_disassembleInOrder hasc hsize horder, ?_⟩,
    fun rows unread h => ?_⟩
  · rintro ⟨rows, unread, hrows, rfl⟩
    exact hrows.text_eq hasc hsize
  · exact ⟨h.shows.apart.1, h.perm horder, fun l hl => h.unread_inside horder hl⟩

/-- The same layout twice is accepted if its instruction ends the image, though
it is read as the same byte twice and shown once. -/
theorem disassemble_repeated_layout :
    disassemble #[0x3C] [⟨0, 1, []⟩, ⟨0, 1, []⟩] ⟨[]⟩ = .ok "    hlt\n" ∧
      Instruction.decode #[0x3C] ⟨0, 1, []⟩ = .ok ⟨0, .hlt, none, none, [], 1⟩ := by
  decide +kernel

/-- An image of two instructions with a byte between them. -/
def twoHalts : Image := #[0x3C, 7, 0x3C]

/-- A label for the byte and one for the end. -/
def twoHaltsLabels : Labels := .ofSymbols [⟨"d", 1⟩, ⟨"e", 3⟩]

/-- Layouts out of order; two of them are for the instruction that ends the image,
and the last one has a width that this instruction does not have. -/
def tiedLayouts : List Layout := [⟨2, 1, []⟩, ⟨0, 1, []⟩, ⟨2, 0, [1]⟩]

/-- The layouts in order, the one that can be read in front of the other. -/
def readableFirst : List Layout := [⟨0, 1, []⟩, ⟨2, 1, []⟩, ⟨2, 0, [1]⟩]

/-- The layouts in order, the one that can be read behind the other. -/
def readableLast : List Layout := [⟨0, 1, []⟩, ⟨2, 0, [1]⟩, ⟨2, 1, []⟩]

/-- One order has a listing and the other has none. -/
theorem disassembleInOrder_eq_ok_iff_tiedLayouts :
    InOrder tiedLayouts readableFirst ∧ InOrder tiedLayouts readableLast ∧
      disassembleInOrder twoHalts tiedLayouts readableFirst twoHaltsLabels =
        .ok "    hlt\nd:\n    db       $07\n    hlt\ne:\n" ∧
      (∃ rows unread, Lists twoHalts tiedLayouts readableFirst twoHaltsLabels rows unread ∧
        (rows.filterMap Row.range?).Pairwise (fun a b => a.2 ≤ b.1) ∧
        tiedLayouts.Perm (rows.filterMap Row.layout? ++ unread)) ∧
      ¬ ∃ rows unread, Lists twoHalts tiedLayouts readableLast twoHaltsLabels rows unread := by
  have hfirst : InOrder tiedLayouts readableFirst := ⟨by decide, by decide⟩
  have hlast : InOrder tiedLayouts readableLast := ⟨by decide, by decide⟩
  have htext : disassembleInOrder twoHalts tiedLayouts readableFirst twoHaltsLabels =
      .ok "    hlt\nd:\n    db       $07\n    hlt\ne:\n" := by
    decide +kernel
  have hnone : (disassembleInOrder twoHalts tiedLayouts readableLast
      twoHaltsLabels).isOk = false := by
    decide +kernel
  have hasc : Labels.Ascending twoHaltsLabels.groups := Labels.ascending_ofSymbols _
  have hsize : twoHalts.size < 2 ^ 32 := by decide
  obtain ⟨hiff, hlists⟩ := disassembleInOrder_eq_ok_iff hasc hsize hfirst
  obtain ⟨hiff', -⟩ := disassembleInOrder_eq_ok_iff hasc hsize hlast
  obtain ⟨rows, unread, hrows, -⟩ := (hiff _).mp htext
  obtain ⟨hapart, hperm, -⟩ := hlists rows unread hrows
  refine ⟨hfirst, hlast, htext, ⟨rows, unread, hrows, hapart, hperm⟩, ?_⟩
  rintro ⟨rows, unread, hrows⟩
  rw [(hiff' _).mpr ⟨rows, unread, hrows, rfl⟩] at hnone
  cases hnone

end RegAsm
