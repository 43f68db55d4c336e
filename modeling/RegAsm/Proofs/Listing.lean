/-
RegAsm.Proofs.Listing — the lines of a listing, one after the other.

What a listing shows is a sequence of rows: labels, bytes and instructions, in
the order in which they lie in the image.  Bytes are gathered until a label or
an instruction comes (`linesOf`).  A listing is made differently: it goes from
one instruction to the next and cuts the bytes between them where it finds
labels.  The lines are the same (`linesOnto_eq`).

1. Rows.
2. Rows without instructions.
3. From one instruction to the next.
4. The rows of a program.
5. Listings of assembled programs.
-/
import RegAsm.DebugMap.Basic
import RegAsm.Listing.Disassembly
import RegAsm.Proofs.Geometry
import RegAsm.Proofs.LabelMap

namespace RegAsm

open Machine
open Source (Position)

namespace Listing

/-! ## 1. Rows -/

/-- What a listing shows at one place. -/
inductive Row where
  | label (name : String)
  | byte (b : UInt8)
  /-- An instruction with its place. -/
  | code (l : Layout) (i : Instruction)

/-- The number of bytes that a row stands for. -/
def Row.size : Row → Nat
  | .label _ => 0
  | .byte _ => 1
  | .code _ i => i.length

def Row.isCode : Row → Bool
  | .code _ _ => true
  | _ => false

/-- The number of bytes that some rows stand for. -/
def rowsSize (rows : List Row) : Nat := (rows.map Row.size).sum

/-- The place of a row's instruction. -/
def Row.layout? : Row → Option Layout
  | .code l _ => some l
  | _ => none

/-- The labels at an address, among rows of which the first lies at `start`. -/
def namesAt (address start : Nat) : List Row → List String
  | [] => []
  | .label name :: rest =>
    if start = address then name :: namesAt address start rest else namesAt address start rest
  | .byte _ :: rest => namesAt address (start + 1) rest
  | .code _ i :: rest => namesAt address (start + i.length) rest

/-- Rows are those of an image from an address on. -/
def Shows (image : Image) (address : Nat) : List Row → Prop
  | [] => address = image.size
  | .label _ :: rest => Shows image address rest
  | .byte b :: rest => image[address]? = some b ∧ Shows image (address + 1) rest
  | .code l i :: rest =>
    l.offset.toNat = address ∧ Instruction.decode image l = .ok i ∧ 0 < i.length ∧
      Shows image (address + i.length) rest

def labelLine (name : String) : String := name ++ ":\n"

def codeLine (labels : Labels) (i : Instruction) : String := "    " ++ i.format labels ++ "\n"

/-- The lines of some rows, behind bytes that are not written yet. -/
def linesOf (labels : Labels) (waiting : List UInt8) : List Row → List String
  | [] => dataLines waiting
  | .label name :: rest => dataLines waiting ++ labelLine name :: linesOf labels [] rest
  | .byte b :: rest => linesOf labels (waiting ++ [b]) rest
  | .code _ i :: rest => dataLines waiting ++ codeLine labels i :: linesOf labels [] rest

theorem dataLines_nil : dataLines [] = [] := rfl

@[simp]
theorem rowsSize_nil : rowsSize [] = 0 := rfl

@[simp]
theorem rowsSize_cons (r : Row) (rest : List Row) :
    rowsSize (r :: rest) = r.size + rowsSize rest := by
  simp [rowsSize]

theorem rowsSize_append (xs ys : List Row) : rowsSize (xs ++ ys) = rowsSize xs + rowsSize ys := by
  simp [rowsSize]

theorem Shows.size {image : Image} {address : Nat} {rows : List Row}
    (h : Shows image address rows) : address + rowsSize rows = image.size := by
  induction rows generalizing address with
  | nil => exact h
  | cons r rest ih =>
    cases r with
    | label name => simpa [Row.size] using ih h
    | byte b => simpa [Row.size, Nat.add_assoc] using ih h.2
    | code l i => simpa [Row.size, Nat.add_assoc] using ih h.2.2.2

/-- A label lies at or behind the first row. -/
theorem namesAt_of_lt {address start : Nat} (h : address < start) (rows : List Row) :
    namesAt address start rows = [] := by
  induction rows generalizing start with
  | nil => rfl
  | cons r rest ih =>
    cases r with
    | label name => rw [namesAt, if_neg (by omega), ih h]
    | byte b => rw [namesAt, ih (by omega)]
    | code l i => rw [namesAt, ih (by omega)]

theorem namesAt_append (address start : Nat) (xs ys : List Row) :
    namesAt address start (xs ++ ys) =
      namesAt address start xs ++ namesAt address (start + rowsSize xs) ys := by
  induction xs generalizing start with
  | nil => rfl
  | cons r rest ih =>
    cases r with
    | label name =>
      simp only [List.cons_append, namesAt, rowsSize_cons, Row.size, Nat.zero_add, ih]
      split <;> rfl
    | byte b => simp only [List.cons_append, namesAt, rowsSize_cons, Row.size, ih, Nat.add_assoc]
    | code l i => simp only [List.cons_append, namesAt, rowsSize_cons, Row.size, ih, Nat.add_assoc]

/-- A label lies in front of the last row's end. -/
theorem namesAt_of_gt {address start : Nat} {rows : List Row}
    (h : start + rowsSize rows < address) : namesAt address start rows = [] := by
  induction rows generalizing start with
  | nil => rfl
  | cons r rest ih =>
    rw [rowsSize_cons] at h
    cases r with
    | label name =>
      have hsize : (Row.label name).size = 0 := rfl
      rw [namesAt, if_neg (by omega), ih (by omega)]
    | byte b =>
      have hsize : (Row.byte b).size = 1 := rfl
      rw [namesAt, ih (by omega)]
    | code l i =>
      have hsize : (Row.code l i).size = i.length := rfl
      rw [namesAt, ih (by omega)]

/-! ## 2. Rows without instructions -/

/-- The rows of `n` bytes from an address on, with the labels in front of each
byte and behind the last one. -/
def dataRows (image : Image) (names : Nat → List String) (address : Nat) : Nat → List Row
  | 0 => (names address).map .label
  | n + 1 =>
    (names address).map .label ++ .byte image[address]! ::
      dataRows image names (address + 1) n

theorem dataRows_congr {image : Image} {names names' : Nat → List String} {address : Nat} {n : Nat}
    (h : ∀ a, address ≤ a → a ≤ address + n → names a = names' a) :
    dataRows image names address n = dataRows image names' address n := by
  induction n generalizing address with
  | zero => rw [dataRows, dataRows, h address (Nat.le_refl _) (Nat.le_refl _)]
  | succ n ih =>
    rw [dataRows, dataRows, h address (Nat.le_refl _) (by omega),
      ih fun a hlow hhigh => h a (by omega) (by omega)]

/-- One more label in front. -/
theorem dataRows_label {image : Image} {names : Nat → List String} {address n : Nat}
    {name : String} :
    dataRows image (fun a => if address = a then name :: names a else names a) address n =
      .label name :: dataRows image names address n := by
  cases n with
  | zero => simp [dataRows]
  | succ n =>
    have hrest := @dataRows_congr image (fun a => if address = a then name :: names a else names a)
      names (address + 1) n fun a ha _ => if_neg (by omega)
    simp [dataRows, hrest]

/-- Rows without instructions are told by their bytes and labels. -/
theorem eq_dataRows {image : Image} {address : Nat} {rows : List Row} {rest : List Row}
    (hcode : ∀ r ∈ rows, r.isCode = false) (h : Shows image address (rows ++ rest)) :
    rows = dataRows image (fun a => namesAt a address rows) address (rowsSize rows) := by
  induction rows generalizing address with
  | nil => rfl
  | cons r rows ih =>
    have hrest : ∀ r ∈ rows, r.isCode = false := fun r' hr' => hcode r' (List.mem_cons_of_mem r hr')
    cases r with
    | label name =>
      simp only [namesAt, rowsSize_cons, Row.size, Nat.zero_add]
      rw [dataRows_label, ← ih hrest h]
    | byte b =>
      obtain ⟨hb, hshows⟩ := h
      have hhere : namesAt address (address + 1) rows = [] :=
        namesAt_of_lt (Nat.lt_succ_self _) rows
      have hbyte : image[address]! = b := by
        rw [getElem!_def, hb]
      simp only [namesAt, rowsSize_cons, Row.size, Nat.add_comm 1, dataRows, hhere, hbyte,
        List.map_nil, List.nil_append]
      rw [← ih hrest hshows]
    | code l i => exact absurd (hcode _ List.mem_cons_self) (by simp [Row.isCode])

section Lines

variable {image : Image} {labels : Labels}

theorem linesOf_labels (waiting : List UInt8) (names : List String) (rows : List Row)
    (h : names ≠ []) :
    linesOf labels waiting (names.map .label ++ rows) =
      dataLines waiting ++ names.map labelLine ++ linesOf labels [] rows := by
  induction names generalizing waiting with
  | nil => exact absurd rfl h
  | cons name names ih =>
    cases names with
    | nil => simp [linesOf]
    | cons next names =>
      rw [List.map_cons, List.cons_append, linesOf, ih [] (by simp)]
      simp [dataLines_nil]

theorem linesOf_labels_end (waiting : List UInt8) (names : List String) :
    linesOf labels waiting (names.map .label) = dataLines waiting ++ names.map labelLine := by
  cases names with
  | nil => simp [linesOf]
  | cons name names =>
    have h := @linesOf_labels labels waiting (name :: names) [] (by simp)
    rwa [List.append_nil, linesOf, dataLines_nil, List.append_nil] at h

theorem linesOf_append_code (waiting : List UInt8) {rows : List Row} (l : Layout) (i : Instruction)
    (rest : List Row) :
    linesOf labels waiting (rows ++ .code l i :: rest) =
      linesOf labels waiting rows ++ codeLine labels i :: linesOf labels [] rest := by
  induction rows generalizing waiting with
  | nil => simp [linesOf]
  | cons r rows ih => cases r <;> simp [linesOf, ih]

/-- The names that the labels give to an address. -/
def nameList (labels : Labels) (a : Nat) : List String := labels.names (UInt32.ofNat a)

theorem labelLines_eq (a : Nat) : labelLines labels a = (nameList labels a).map labelLine := rfl

theorem extract_succ {s a : Nat} (hs : s ≤ a) (ha : a < image.size) :
    (image.extract s (a + 1)).toList = (image.extract s a).toList ++ [image[a]!] := by
  rw [getElem!_pos image a ha]
  simp only [Array.toList_extract, List.extract_eq_take_drop]
  rw [show a + 1 - s = (a - s) + 1 by omega, List.take_add_one, List.getElem?_drop,
    show s + (a - s) = a by omega]
  simp [ha]

/-- The lines of rows that start inside a piece: the piece goes on to the next
address with a label. -/
theorem linesOf_dataRows {s a n : Nat} (hs : s < a) (hstop : a + n ≤ image.size) :
    labelLines labels s ++
        linesOf labels (image.extract s a).toList (dataRows image (nameList labels) a n) =
      pieceLines image labels s (a + n)
          ((List.range' a n).filter fun b => nameList labels b ≠ []) ++
        labelLines labels (a + n) := by
  induction n generalizing s a with
  | zero =>
    rw [dataRows, linesOf_labels_end, List.range'_zero, List.filter_nil, pieceLines, Nat.add_zero,
      List.append_assoc, labelLines_eq a]
  | succ n ih =>
    have hsplit : a + (n + 1) = a + 1 + n := by omega
    rw [dataRows, List.range'_succ, hsplit]
    by_cases hnames : nameList labels a = []
    · rw [hnames, List.map_nil, List.nil_append, linesOf, ← extract_succ (by omega) (by omega),
        ih (by omega) (by omega), List.filter_cons_of_neg (by simpa using hnames)]
    · have hbyte : [image[a]!] = (image.extract a (a + 1)).toList := by
        rw [extract_succ (Nat.le_refl a) (by omega)]
        simp
      have hnext := @ih a (a + 1) (Nat.lt_succ_self a) (by omega)
      rw [linesOf_labels _ _ _ hnames, linesOf, List.nil_append, hbyte,
        List.filter_cons_of_pos (by simpa using hnames), pieceLines]
      simp only [List.append_assoc]
      rw [← labelLines_eq, hnext]

/-- The lines between two instructions, the labels in front of the second
included. -/
theorem regionLines_eq (hasc : Labels.Ascending labels.groups) (hsize : image.size < 2 ^ 32)
    {start n : Nat} (hstop : start + n ≤ image.size) :
    regionLines image labels start (start + n) ++ labelLines labels (start + n) =
      linesOf labels [] (dataRows image (nameList labels) start n) := by
  cases n with
  | zero =>
    rw [regionLines, if_neg (by omega), dataRows, linesOf_labels_end, dataLines_nil]
    rfl
  | succ n =>
    have hcuts : labels.between start (start + (n + 1)) =
        (List.range' (start + 1) n).filter fun b => nameList labels b ≠ [] := by
      rw [Labels.between_eq hasc (by omega), show start + (n + 1) - start - 1 = n by omega]
      rfl
    have hbyte : [image[start]!] = (image.extract start (start + 1)).toList := by
      rw [extract_succ (Nat.le_refl start) (by omega)]
      simp
    have hlines := @linesOf_dataRows image labels start (start + 1) n (Nat.lt_succ_self _)
      (by omega)
    rw [regionLines, if_pos (by omega), hcuts, dataRows,
      show start + (n + 1) = start + 1 + n by omega, ← hlines, ← hbyte]
    by_cases hnames : nameList labels start = []
    · simp [labelLines_eq, hnames, linesOf]
    · rw [linesOf_labels _ _ _ hnames, dataLines_nil, linesOf, labelLines_eq]
      simp

end Lines

/-! ## 3. From one instruction to the next -/

theorem Shows.behind {image : Image} {address : Nat} {xs ys : List Row}
    (h : Shows image address (xs ++ ys)) : Shows image (address + rowsSize xs) ys := by
  induction xs generalizing address with
  | nil => exact h
  | cons r xs ih =>
    rw [rowsSize_cons, ← Nat.add_assoc]
    cases r with
    | label name => exact ih h
    | byte b => exact ih h.2
    | code l i => exact ih h.2.2.2

/-- An instruction among the rows is the one that is read at its place. -/
theorem Shows.decode {image : Image} {address : Nat} {rows : List Row} {l : Layout}
    {i : Instruction} (h : Shows image address rows) (hmem : .code l i ∈ rows) :
    Instruction.decode image l = .ok i := by
  obtain ⟨xs, ys, rfl⟩ := List.append_of_mem hmem
  exact h.behind.2.1

section Walk

variable {image : Image} {labels : Labels} (hasc : Labels.Ascending labels.groups)
  (hsize : image.size < 2 ^ 32)

include hasc hsize

/-- The lines of rows without instructions that lie in front of others. -/
theorem regionLines_rows {start : Nat} {rows rest : List Row}
    (hcode : ∀ r ∈ rows, r.isCode = false) (hshows : Shows image start (rows ++ rest))
    (hnames : ∀ a, start ≤ a → a ≤ start + rowsSize rows →
      nameList labels a = namesAt a start rows) :
    regionLines image labels start (start + rowsSize rows) ++
        labelLines labels (start + rowsSize rows) =
      linesOf labels [] rows := by
  have htotal := hshows.size
  rw [rowsSize_append] at htotal
  rw [regionLines_eq hasc hsize (by omega), dataRows_congr hnames, ← eq_dataRows hcode hshows]

/-- Going from one instruction to the next writes the lines of the rows, if the
labels are those of the rows.  Some rows without an instruction have been
passed already. -/
theorem linesOnto_eq {start : Nat} {passed rows : List Row} (done : Array String)
    (hcode : ∀ r ∈ passed, r.isCode = false) (hshows : Shows image start (passed ++ rows))
    (hnames : ∀ a, start ≤ a → a ≤ image.size →
      nameList labels a = namesAt a start (passed ++ rows)) :
    (linesOnto image labels done start (rows.filterMap Row.layout?)).map Array.toList =
      .ok (done.toList ++ linesOf labels [] (passed ++ rows)) := by
  induction rows generalizing start passed done with
  | nil =>
    have hstop : start + rowsSize passed = image.size := by simpa using hshows.size
    have hregion := regionLines_rows hasc hsize hcode hshows fun a hlow hhigh => by
      simpa using hnames a hlow (by omega)
    rw [List.append_nil, ← hregion, hstop]
    simp [linesOnto, Except.map]
  | cons r rows ih =>
    cases hr : r.isCode with
    | false =>
      have hassoc : passed ++ r :: rows = (passed ++ [r]) ++ rows := by simp
      have hlayout : r.layout? = none := by
        cases r with
        | code l i => cases hr
        | _ => rfl
      rw [hassoc] at hshows hnames ⊢
      rw [List.filterMap_cons_none hlayout]
      refine ih done (fun r' hr' => ?_) hshows hnames
      rcases List.mem_append.mp hr' with hr' | hr'
      · exact hcode r' hr'
      · exact List.mem_singleton.mp hr' ▸ hr
    | true =>
      obtain ⟨l, i, rfl⟩ : ∃ l i, r = .code l i := by
        cases r with
        | code l i => exact ⟨l, i, rfl⟩
        | _ => cases hr
      obtain ⟨hoffset, hdecode, hpos, hrest⟩ := hshows.behind
      have hend : start + rowsSize passed + i.length + rowsSize rows = image.size := hrest.size
      -- The labels of the rows that were passed, and those behind the instruction.
      have hsplit : ∀ a, namesAt a start (passed ++ .code l i :: rows) =
          namesAt a start passed ++ namesAt a (start + rowsSize passed + i.length) rows :=
        fun a => namesAt_append a start passed (.code l i :: rows)
      have hregion := regionLines_rows hasc hsize hcode hshows fun a hlow hhigh => by
        have hbehind : a < start + rowsSize passed + i.length := by omega
        rw [hnames a hlow (by omega), hsplit, namesAt_of_lt hbehind, List.append_nil]
      have hinside : labels.firstBetween? (start + rowsSize passed)
          (start + rowsSize passed + i.length) = none := by
        refine Labels.firstBetween?_eq_none hasc fun a hlow hhigh => ?_
        have ha := hnames a.toNat (by omega) (by omega)
        rw [nameList, UInt32.ofNat_toNat] at ha
        rw [ha, hsplit, namesAt_of_gt hlow, namesAt_of_lt hhigh, List.append_nil]
      have hnext := @ih (start + rowsSize passed + i.length) []
        ((done ++ regionLines image labels start (start + rowsSize passed) ++
          labelLines labels (start + rowsSize passed)).push (codeLine labels i))
        (by simp) hrest fun a hlow hhigh => by
          rw [hnames a (by omega) hhigh, hsplit, namesAt_of_gt (by omega), List.nil_append,
            List.nil_append]
      have hlayouts : (Row.code l i :: rows).filterMap Row.layout? =
          l :: rows.filterMap Row.layout? := rfl
      rw [hlayouts, linesOnto, if_neg (by omega), hoffset, if_neg (by omega), hdecode]
      simp only [hinside]
      rw [linesOf_append_code, ← hregion]
      refine hnext.trans ?_
      simp

end Walk

/-! ## 4. The rows of a program -/

/-- The rows of a statement at an address. -/
def rowsOf (image : Image) (address : Nat) : Statement → List Row
  | .label name _ | .localLabel name _ => [.label name]
  | .data items _ =>
    match dataBytes items with
    | .ok bytes => bytes.map .byte
    | .error _ => []
  | .instruction m operands _ =>
    match Encoding.of m operands with
    | .ok e =>
      match Instruction.decode image (e.layout address) with
      | .ok i => [.code (e.layout address) i]
      | .error _ => []
    | .error _ => []
  | _ => []

/-- The rows of some statements, the first of which starts at an address. -/
def rowsFrom (image : Image) (address : Nat) : List Statement → List Row
  | [] => []
  | s :: rest => rowsOf image address s ++ rowsFrom image (address + s.size) rest

/-- The names among some labels that stand at an address. -/
def declaredAt (a : Nat) (ds : List Declaration) : List String :=
  (ds.filter (·.address = a)).map (·.name)

theorem declaredAt_append (a : Nat) (xs ys : List Declaration) :
    declaredAt a (xs ++ ys) = declaredAt a xs ++ declaredAt a ys := by
  simp [declaredAt]

section Programs

variable {image : Image}

theorem namesAt_bytes (a start : Nat) (bytes : List UInt8) :
    namesAt a start (bytes.map .byte) = [] := by
  induction bytes generalizing start with
  | nil => rfl
  | cons b bytes ih => exact ih (start + 1)

theorem rowsSize_bytes (bytes : List UInt8) : rowsSize (bytes.map .byte) = bytes.length := by
  induction bytes with
  | nil => rfl
  | cons b bytes ih =>
    rw [List.map_cons, rowsSize_cons, ih, List.length_cons, Row.size, Nat.add_comm]

theorem shows_bytes {xs bytes ys : List UInt8} (himage : image.toList = xs ++ (bytes ++ ys))
    {rest : List Row} (hrest : Shows image (xs.length + bytes.length) rest) :
    Shows image xs.length (bytes.map .byte ++ rest) := by
  induction bytes generalizing xs with
  | nil => exact hrest
  | cons b bytes ih =>
    have hnext : image.toList = xs ++ [b] ++ (bytes ++ ys) := by simpa using himage
    refine ⟨getElem?_of_toList himage, ?_⟩
    have hlen : (xs ++ [b]).length = xs.length + 1 := by simp
    rw [← hlen]
    refine ih hnext ?_
    rwa [hlen, Nat.add_assoc, Nat.add_comm 1]

theorem rowsOf_data {items : List Operand} {bytes : List UInt8} (h : dataBytes items = .ok bytes)
    (address : Nat) (pos : Position) :
    rowsOf image address (.data items pos) = bytes.map .byte := by
  rw [rowsOf, h]

/-- An instruction that is read at its place is one row. -/
theorem rowsOf_instruction {m : Mnemonic} {operands : List Operand} {e : Encoding}
    {address : Nat} {i : Instruction} (he : Encoding.of m operands = .ok e)
    (hi : Instruction.decode image (e.layout address) = .ok i) (pos : Position) :
    rowsOf image address (.instruction m operands pos) = [.code (e.layout address) i] := by
  rw [rowsOf, he]
  simp only [hi]

/-- The rows of a statement whose bytes stand in the image show the image, and
they have the statement's size, place and labels. -/
theorem rowsOf_spec {address? : String → Option UInt32} {s : Statement} {xs bytes ys : List UInt8}
    (hbytes : s.bytes? address? = some bytes) (himage : image.toList = xs ++ (bytes ++ ys))
    (hbound : xs.length < 2 ^ 32) :
    rowsSize (rowsOf image xs.length s) = s.size ∧
    (rowsOf image xs.length s).filterMap Row.layout? = s.layouts xs.length ∧
    (∀ a, namesAt a xs.length (rowsOf image xs.length s) =
      declaredAt a (s.declarations xs.length)) ∧
    ∀ rest, Shows image (xs.length + s.size) rest →
      Shows image xs.length (rowsOf image xs.length s ++ rest) := by
  cases s with
  | label name pos =>
    refine ⟨rfl, rfl, fun a => ?_, fun rest h => h⟩
    by_cases h : xs.length = a <;>
      simp [rowsOf, namesAt, declaredAt, Statement.declarations, h]
  | localLabel name pos =>
    refine ⟨rfl, rfl, fun a => ?_, fun rest h => h⟩
    by_cases h : xs.length = a <;>
      simp [rowsOf, namesAt, declaredAt, Statement.declarations, h]
  | data items pos =>
    have hdata := Statement.bytes?_data_eq_some_iff.mp hbytes
    rw [rowsOf_data hdata, Statement.size_data hdata]
    refine ⟨rowsSize_bytes bytes, ?_, fun a => namesAt_bytes a _ bytes, fun rest h =>
      shows_bytes himage h⟩
    rw [List.filterMap_map]
    exact List.filterMap_eq_nil_iff.mpr fun b _ => rfl
  | instruction m operands pos =>
    obtain ⟨e, he, hbytes⟩ := Statement.bytes?_instruction_eq_some_iff.mp hbytes
    obtain ⟨ds, hdecode, -⟩ := decode_bytes he hbytes himage hbound
    rw [rowsOf_instruction he hdecode, Statement.size_instruction he,
      Statement.layouts_instruction he]
    exact ⟨rfl, rfl, fun a => rfl, fun rest h =>
      ⟨UInt32.toNat_ofNat_of_lt hbound, hdecode, e.length_pos, h⟩⟩
  | times count body pos => cases hbytes
  | bareTimes count pos => cases hbytes
  | other tag m operands pos => cases hbytes

/-- The rows of statements whose bytes stand in the image show the image to its
end. -/
theorem rowsFrom_spec {rule : NameRule} {earlier : List Declaration} {ss : List Statement}
    {xs bytes : List UInt8} (h : imageFrom? rule earlier xs.length ss = some bytes)
    (himage : image.toList = xs ++ bytes) (hsize : image.size < 2 ^ 32) :
    (rowsFrom image xs.length ss).filterMap Row.layout? = layoutsFrom xs.length ss ∧
    (∀ a, namesAt a xs.length (rowsFrom image xs.length ss) =
      declaredAt a (declarationsFrom xs.length ss)) ∧
    Shows image xs.length (rowsFrom image xs.length ss) := by
  induction ss generalizing xs earlier bytes with
  | nil =>
    cases h
    refine ⟨rfl, fun a => rfl, ?_⟩
    rw [List.append_nil] at himage
    rw [rowsFrom, ← himage]
    exact Array.length_toList
  | cons s rest ih =>
    obtain ⟨bs, tail, hbs, htail, rfl⟩ := joined?_eq_some h
    have hbound : xs.length < 2 ^ 32 := by
      have hlen : image.toList.length = image.size := Array.length_toList
      rw [himage, List.length_append] at hlen
      omega
    obtain ⟨hrows, hlayouts, hnames, hshows⟩ := rowsOf_spec hbs himage hbound
    have hstep : (xs ++ bs).length = xs.length + s.size := by
      rw [List.length_append, s.length_of_bytes? hbs]
    rw [← hstep] at htail
    rw [← List.append_assoc] at himage
    obtain ⟨hlayouts', hnames', hshows'⟩ := ih htail himage
    rw [hstep] at hlayouts' hnames' hshows'
    refine ⟨?_, fun a => ?_, hshows _ hshows'⟩
    · rw [rowsFrom, List.filterMap_append, hlayouts, hlayouts', layoutsFrom]
    · rw [rowsFrom, namesAt_append, hnames, hrows, hnames', declarationsFrom, declaredAt_append]

theorem insertLayout_eq_cons {l : Layout} {ls : List Layout} (h : ∀ l' ∈ ls, l.offset ≤ l'.offset) :
    insertLayout l ls = l :: ls := by
  cases ls with
  | nil => rfl
  | cons l' rest => rw [insertLayout, if_pos (h l' List.mem_cons_self)]

/-- Layouts that are in order of offset stay as they are. -/
theorem byOffset_eq {ls : List Layout} (h : ls.Pairwise (·.offset ≤ ·.offset)) :
    byOffset ls = ls := by
  induction ls with
  | nil => rfl
  | cons l rest ih =>
    obtain ⟨hl, hrest⟩ := List.pairwise_cons.mp h
    have hstep : byOffset (l :: rest) = insertLayout l (byOffset rest) := rfl
    rw [hstep, ih hrest, insertLayout_eq_cons hl]

theorem toNat_stop {l : Layout} (hlow : 0 ≤ l.length) (hhigh : l.offset.toNat + l.length < 2 ^ 32) :
    (l.stop.toNat : Int) = l.offset.toNat + l.length := by
  have hword : UInt32.size = 2 ^ 32 := rfl
  have hmod : (l.length % 2 ^ 32).toNat = l.length.toNat := by omega
  have hlength : (UInt32.ofInt l.length).toNat = l.length.toNat := by
    rw [UInt32.ofInt, hmod, UInt32.toNat_ofNat_of_lt' (by omega)]
  rw [Layout.stop, UInt32.toNat_add, hlength, Nat.mod_eq_of_lt (by omega)]
  omega

/-- The place of an instruction lies inside the image of its program. -/
theorem mem_layoutsFrom {ss : List Statement} {l : Layout} (h : l ∈ layoutsFrom 0 ss)
    (hbound : 0 + sizeSum ss < 2 ^ 32) :
    l.offset.toNat < sizeSum ss ∧ l.stop.toNat ≤ sizeSum ss := by
  obtain ⟨-, hpos, hend⟩ := extent_of_mem_layoutsFrom h hbound
  have hstop := toNat_stop (Int.le_of_lt hpos) (by omega)
  omega

theorem pairwise_layoutsFrom {ss : List Statement} (hbound : 0 + sizeSum ss < 2 ^ 32) :
    (layoutsFrom 0 ss).Pairwise (·.offset ≤ ·.offset) := by
  refine (apart_layoutsFrom hbound).imp_of_mem fun {l l'} hl _ hle => ?_
  have hpos := (extent_of_mem_layoutsFrom hl hbound).2.1
  rw [UInt32.le_iff_toNat_le]
  omega

/-- The labels of a program, grouped by address, are its labels at each
address. -/
theorem nameList_ofSymbols {ds : List Declaration} (hds : ∀ d ∈ ds, d.address < 2 ^ 32)
    {a : Nat} (ha : a < 2 ^ 32) :
    nameList (Labels.ofSymbols (ds.map (·.symbol))) a = declaredAt a ds := by
  rw [nameList, Labels.names_ofSymbols, List.filter_map, List.map_map, declaredAt]
  have hfilter : ds.filter ((fun s : Symbol => decide (s.address = UInt32.ofNat a)) ∘
      (·.symbol)) = ds.filter (·.address = a) := by
    refine List.filter_congr fun d hd => ?_
    have hiff : UInt32.ofNat d.address = UInt32.ofNat a ↔ d.address = a := by
      rw [← UInt32.toNat_inj, UInt32.toNat_ofNat_of_lt' (hds d hd), UInt32.toNat_ofNat_of_lt' ha]
    exact decide_eq_decide.mpr hiff
  rw [hfilter]
  rfl

end Programs

end Listing

/-- The rows of an assembled program show its image; their places and labels
are those of the program. -/
theorem Assembled.rows {program : List Statement} {image : Image} {run : Run}
    (h : Assembled program image run) (hsize : image.size < 2 ^ 32) :
    (Listing.rowsFrom image 0 (unroll program)).filterMap Listing.Row.layout? =
      layoutsFrom 0 (unroll program) ∧
    (∀ a, Listing.namesAt a 0 (Listing.rowsFrom image 0 (unroll program)) =
      Listing.declaredAt a (declarationsFrom 0 (unroll program))) ∧
    Listing.Shows image 0 (Listing.rowsFrom image 0 (unroll program)) :=
  @Listing.rowsFrom_spec image deferredRule [] (unroll program) [] image.toList h.bytes
    (List.nil_append _).symm hsize

/-- The names at an address are those of the program's labels there. -/
theorem Assembled.nameList {program : List Statement} {image : Image} {run : Run}
    (h : Assembled program image run) (hsize : image.size < 2 ^ 32) {a : Nat}
    (ha : a ≤ image.size) :
    Listing.nameList (.ofSymbols run.declared.toList) a =
      Listing.declaredAt a (declarationsFrom 0 (unroll program)) := by
  rw [h.declared]
  refine Listing.nameList_ofSymbols (fun d hd => ?_) (by omega)
  have haddress := (address_of_mem_declarationsFrom hd).2
  rw [h.size] at haddress
  omega

/-! ## 5. Listings of assembled programs -/

theorem Assembled.inside {program : List Statement} {image : Image} {run : Run}
    (h : Assembled program image run) (hsize : image.size < 2 ^ 32) :
    ∀ l ∈ layoutsFrom 0 (unroll program),
      l.offset.toNat < image.size ∧ l.stop.toNat ≤ image.size := by
  intro l hl
  rw [← h.size] at hsize ⊢
  exact Listing.mem_layoutsFrom hl (by rwa [Nat.zero_add])

/-- The listing of an assembled program is made of the lines of its rows. -/
theorem Assembled.disassemble {program : List Statement} {image : Image} {run : Run}
    (h : Assembled program image run) (hsize : image.size < 2 ^ 32) :
    disassemble image run.layouts.toList (.ofSymbols run.declared.toList) =
      .ok (String.join (Listing.linesOf (.ofSymbols run.declared.toList) []
        (Listing.rowsFrom image 0 (unroll program)))) := by
  obtain ⟨hlayouts, hnames, hshows⟩ := h.rows hsize
  have hbound : 0 + sizeSum (unroll program) < 2 ^ 32 := by
    rw [h.size]
    omega
  have houtside : Listing.outside? image.size (layoutsFrom 0 (unroll program)) = none := by
    refine List.find?_eq_none.mpr fun l hl => ?_
    obtain ⟨hoffset, hstop⟩ := h.inside hsize l hl
    simp only [Bool.or_eq_true, decide_eq_true_eq]
    omega
  have hlines := @Listing.linesOnto_eq image _ (Labels.ascending_ofSymbols run.declared.toList)
    hsize 0 [] _ #[] (by simp) hshows fun a _ ha => (h.nameList hsize ha).trans (hnames a).symm
  rw [hlayouts] at hlines
  rw [RegAsm.disassemble, disassembleInOrder, h.layouts, houtside,
    Listing.byOffset_eq (Listing.pairwise_layoutsFrom hbound)]
  simp only
  cases hrun : Listing.linesOnto image (.ofSymbols run.declared.toList) #[] 0
      (layoutsFrom 0 (unroll program)) with
  | error e =>
    rw [hrun] at hlines
    cases hlines
  | ok lines =>
    rw [hrun] at hlines
    simp only [Except.map, Except.ok.injEq] at hlines ⊢
    rw [hlines]
    rfl

/-- Nothing is in a listing's way: every place lies in the image, is read as an
instruction and holds no label inside, and each instruction ends before the next
one starts. -/
structure Listing.Orderly (image : Image) (layouts : List Layout) (labels : Labels) : Prop where
  inside : ∀ l ∈ layouts, l.offset.toNat < image.size ∧ l.stop.toNat ≤ image.size
  decodes : ∀ l ∈ layouts, ∃ i, Instruction.decode image l = .ok i
  apart : layouts.Pairwise fun l l' => ∀ i, Instruction.decode image l = .ok i →
    l.offset.toNat + i.length ≤ l'.offset.toNat
  labelsOutside : ∀ l ∈ layouts, ∀ i, Instruction.decode image l = .ok i → ∀ address : UInt32,
    l.offset.toNat < address.toNat → address.toNat < l.offset.toNat + i.length →
      labels.names address = []

/-- An instruction of an assembled program is read in the length that its place
states. -/
theorem Assembled.decode_layout {program : List Statement} {image : Image} {run : Run}
    (h : Assembled program image run) (hsize : image.size < 2 ^ 32) {l : Layout}
    (hl : l ∈ layoutsFrom 0 (unroll program)) :
    ∃ i, Instruction.decode image l = .ok i ∧ l.length = i.length := by
  obtain ⟨k, hk⟩ := List.getElem?_of_mem hl
  obtain ⟨before, m, operands, pos, after, e, hsplit, -, he, rfl⟩ :=
    layoutsFrom_getElem? h.encodable hk
  rw [Nat.zero_add]
  obtain ⟨-, ds, hdecode, -⟩ := h.decode hsize hsplit he
  exact ⟨_, hdecode, rfl⟩

theorem Assembled.orderly {program : List Statement} {image : Image} {run : Run}
    (h : Assembled program image run) (hsize : image.size < 2 ^ 32) :
    Listing.Orderly image run.layouts.toList (.ofSymbols run.declared.toList) := by
  have hbound : 0 + sizeSum (unroll program) < 2 ^ 32 := by
    rw [h.size]
    omega
  have hread : ∀ l ∈ layoutsFrom 0 (unroll program), ∀ i, Instruction.decode image l = .ok i →
      l.length = i.length := by
    intro l hl i hi
    obtain ⟨i', hi', hlength⟩ := h.decode_layout hsize hl
    rw [hi] at hi'
    cases hi'
    exact hlength
  rw [h.layouts, h.declared]
  refine ⟨h.inside hsize, ?_, ?_, ?_⟩
  · intro l hl
    obtain ⟨i, hi, -⟩ := h.decode_layout hsize hl
    exact ⟨i, hi⟩
  · refine (apart_layoutsFrom hbound).imp_of_mem fun {l l'} hl _ hle i hi => ?_
    have hlength := hread l hl i hi
    omega
  · intro l hl i hi address hlow hhigh
    have hlength := hread l hl i hi
    rw [Labels.names_ofSymbols, List.map_eq_nil_iff, List.filter_eq_nil_iff]
    intro s hs heq
    obtain ⟨d, hd, rfl⟩ := List.mem_map.mp hs
    -- A label inside the instruction would be one of the program's labels.
    have haddress : address.toNat = d.address := by
      have hle := (address_of_mem_declarationsFrom hd).2
      have hlt : d.address < 2 ^ 32 := by omega
      rw [← of_decide_eq_true heq]
      exact UInt32.toNat_ofNat_of_lt' hlt
    have houtside := label_outside_layout hd hl hbound
    omega

/-- An assembled program can be listed from its own layouts and symbols, whatever its
statements are.  None of the things that stop a listing occurs, and the listing
shows rows: one for each layout, with the data and the labels around them. -/
theorem disassemble_assembled {a a' : Assembler} {program : List Statement} {image : Image}
    (h : a.assembleProgram program = (.ok image, a')) (hsize : image.size < 2 ^ 32)
    (source : String) :
    Listing.Orderly image a'.layouts (a'.debugMap source).labels ∧
    ∃ rows, Listing.Shows image 0 rows ∧
      rows.filterMap Listing.Row.layout? = a'.layouts ∧
      (∀ address, address ≤ image.size →
        Listing.namesAt address 0 rows =
          (a'.debugMap source).labels.names (UInt32.ofNat address)) ∧
      disassemble image a'.layouts (a'.debugMap source).labels =
        .ok (String.join (Listing.linesOf (a'.debugMap source).labels [] rows)) := by
  have hasm := Assembler.assembled h hsize
  obtain ⟨hlayouts, hnames, hshows⟩ := hasm.rows hsize
  refine ⟨hasm.orderly hsize, _, hshows, ?_, ?_, hasm.disassemble hsize⟩
  · rw [hlayouts]
    exact hasm.layouts.symm
  · intro address haddress
    exact (hnames address).trans (hasm.nameList hsize haddress).symm

/-- Names that no source text can hold, jumps repeated in a repetition, local labels
of the same name with data between them, and a label at the end. -/
def oddNames : List Statement :=
  [.label "" .nowhere,
    .times 2 (.times 2 (.instruction (.op .jmp) [⟨.name "a b", .nowhere⟩] .nowhere) .nowhere)
      .nowhere,
    .localLabel ".x" .nowhere,
    .data [⟨.text "data", .nowhere⟩, ⟨.immediate 0, .nowhere⟩] .nowhere,
    .localLabel ".x" .nowhere,
    .instruction (.sizedMove .dword)
      [⟨.register ⟨0⟩, .nowhere⟩, ⟨.immediate 7, .nowhere⟩] .nowhere,
    .label "a b" .nowhere]

theorem disassemble_assembled_oddNames :
    ∃ image a', ({} : Assembler).assembleProgram oddNames = (.ok image, a') ∧
      image.size < 2 ^ 32 ∧
      Listing.Orderly image a'.layouts (a'.debugMap "odd").labels ∧
      ∃ text, disassemble image a'.layouts (a'.debugMap "odd").labels = .ok text := by
  have hok : ∃ image ∈ (({} : Assembler).assembleProgram oddNames).1.toOption,
      image.size < 2 ^ 32 := by decide +kernel
  obtain ⟨image, hmem, hsize⟩ := hok
  cases hi : (({} : Assembler).assembleProgram oddNames).1 with
  | error e => rw [hi] at hmem; cases hmem
  | ok image' =>
    rw [hi] at hmem
    cases hmem
    have hrun : ({} : Assembler).assembleProgram oddNames =
        (.ok image, (({} : Assembler).assembleProgram oddNames).2) := by
      rw [← hi]
    obtain ⟨horderly, rows, -, -, -, htext⟩ := disassemble_assembled hrun hsize "odd"
    exact ⟨image, _, hrun, hsize, horderly, _, htext⟩

end RegAsm
