/-
RegAsm.Proofs.Walk — a listing as a walk over the image.

A listing is made here in passes: a 32-bit cursor goes over the image, each pass
writes data up to the next layout or label, or one instruction, and all bytes,
layouts and names are fetched by index.  Layouts and labels may say anything, in
any order.  Each pass moves the cursor forward and never past the end
(`Checked.Step`), so the walk ends; and it gives the listing
(`Checked.listing_eq`), so no access is out of bounds.

1. Names ahead.
2. Passes.
3. What a pass does.
4. Listings.
-/
import RegAsm.Proofs.Indexing

namespace RegAsm

open Machine

/-! ## 1. Names ahead -/

namespace Labels

variable {l : Labels} (h : Ascending l.groups) {low high cut : Nat}

include h

theorem between_eq_nil (hhigh : high ≤ 2 ^ 32)
    (hnone : ∀ n, low < n → n < high → l.names (UInt32.ofNat n) = []) :
    l.between low high = [] := by
  rw [between_eq h hhigh, List.filter_eq_nil_iff]
  intro n hn
  rw [List.mem_range'_1] at hn
  simpa using hnone n (by omega) (by omega)

/-- The first address with a name is the first of all. -/
theorem between_eq_cons (hhigh : high ≤ 2 ^ 32) (hlow : low < cut) (hcut : cut < high)
    (hnamed : l.names (UInt32.ofNat cut) ≠ [])
    (hnone : ∀ n, low < n → n < cut → l.names (UInt32.ofNat n) = []) :
    l.between low high = cut :: l.between cut high := by
  have hfront := between_eq_nil h (by omega) hnone
  rw [between_eq h (by omega)] at hfront
  have hsplit : List.range' (low + 1) (high - low - 1) =
      List.range' (low + 1) (cut - low - 1) ++ cut :: List.range' (cut + 1) (high - cut - 1) := by
    have happend := @List.range'_append_1 (low + 1) (cut - low - 1) (high - cut - 1 + 1)
    rw [show low + 1 + (cut - low - 1) = cut by omega,
      show cut - low - 1 + (high - cut - 1 + 1) = high - low - 1 by omega] at happend
    rw [← happend, List.range'_succ]
  rw [between_eq h hhigh, between_eq h hhigh, hsplit, List.filter_append, hfront, List.nil_append,
    List.filter_cons_of_pos (by simpa using hnamed)]

/-- The first name between two addresses is the first one at the first address
that has one. -/
theorem firstBetween?_eq_head? {a : UInt32} (hlow : low < a.toNat) (hhigh : a.toNat < high)
    (hnone : ∀ c : UInt32, low < c.toNat → c.toNat < a.toNat → l.names c = [])
    (hnamed : l.names a ≠ []) : l.firstBetween? low high = (l.names a).head? := by
  cases hfind : l.groups.lookup a with
  | none => simp [names, hfind] at hnamed
  | some names =>
    have hnames : l.names a = names := by simp [Labels.names, hfind]
    obtain ⟨xs, ys, hgroups, -⟩ := List.lookup_eq_some_iff.mp hfind
    have hfront : xs.findSome? (fun g =>
        if low < g.1.toNat ∧ g.1.toNat < high then g.2.head? else none) = none := by
      rw [List.findSome?_eq_none_iff]
      intro g hg
      have hmem : g ∈ l.groups := hgroups ▸ List.mem_append_left _ hg
      have hbefore : g.1 < a := by
        have hpairs := h
        rw [Ascending, hgroups, List.pairwise_append] at hpairs
        exact hpairs.2.2 g hg (a, names) List.mem_cons_self
      simp only [ite_eq_right_iff]
      rintro ⟨hg1, -⟩
      rw [← names_eq_of_mem h hmem, hnone g.1 hg1 (UInt32.lt_iff_toNat_lt.mp hbefore)]
      rfl
    obtain ⟨name, rest, rfl⟩ := List.exists_cons_of_ne_nil (hnames ▸ hnamed)
    rw [firstBetween?, hgroups, List.findSome?_append, hnames,
      show xs.findSome? _ = none from hfront]
    simp [hlow, hhigh]

end Labels

namespace Checked

/-- The first address from one on, and below another, that has a name. -/
def firstNamed (labels : Labels) (a stop : UInt32) : Option UInt32 :=
  if h : a < stop then
    if labels.names a = [] then firstNamed labels (a + 1) stop else some a
  else none
termination_by stop.toNat - a.toNat
decreasing_by
  have hlt := UInt32.lt_iff_toNat_lt.mp h
  have hstop := stop.toNat_lt
  rw [UInt32.toNat_add, UInt32.toNat_one]
  omega

/-- What is found ahead: the address, with no name in front of it, or none. -/
theorem firstNamed_spec (labels : Labels) (a stop : UInt32) :
    (∃ b, firstNamed labels a stop = some b ∧ a ≤ b ∧ b < stop ∧ labels.names b ≠ [] ∧
      ∀ c, a ≤ c → c < b → labels.names c = []) ∨
    (firstNamed labels a stop = none ∧ ∀ c, a ≤ c → c < stop → labels.names c = []) := by
  fun_induction firstNamed labels a stop with
  | case1 a hlt hnone ih =>
    have hstop := stop.toNat_lt
    have hnext : (a + 1).toNat = a.toNat + 1 := by
      rw [UInt32.lt_iff_toNat_lt] at hlt
      rw [UInt32.toNat_add, UInt32.toNat_one]
      omega
    -- An address from here on is this one or lies behind it.
    have hsplit (c : UInt32) (hc : a ≤ c) : c = a ∨ a + 1 ≤ c := by
      rw [UInt32.le_iff_toNat_le] at hc ⊢
      rw [hnext, ← UInt32.toNat_inj]
      omega
    rcases ih with ⟨b, hfound, hle, hb, hnamed, hfront⟩ | ⟨hfound, hfront⟩
    · refine .inl ⟨b, hfound, ?_, hb, hnamed, fun c hc hcb => ?_⟩
      · rw [UInt32.le_iff_toNat_le] at hle ⊢
        omega
      · rcases hsplit c hc with rfl | hc
        · exact hnone
        · exact hfront c hc hcb
    · refine .inr ⟨hfound, fun c hc hcs => ?_⟩
      rcases hsplit c hc with rfl | hc
      · exact hnone
      · exact hfront c hc hcs
  | case2 a hlt hnamed =>
    refine .inl ⟨a, rfl, UInt32.le_refl a, hlt, hnamed, fun c hc hca => ?_⟩
    exact absurd hca (UInt32.not_lt.mpr hc)
  | case3 a hend =>
    refine .inr ⟨rfl, fun c hc hcs => ?_⟩
    exact absurd (UInt32.lt_of_le_of_lt hc hcs) hend

/-- What is found behind an address and in front of another. -/
theorem firstNamed_behind {a stop : UInt32} (h : a < stop) (labels : Labels) :
    (∃ b, firstNamed labels (a + 1) stop = some b ∧ a < b ∧ b < stop ∧ labels.names b ≠ [] ∧
      ∀ c, a < c → c < b → labels.names c = []) ∨
    (firstNamed labels (a + 1) stop = none ∧ ∀ c, a < c → c < stop → labels.names c = []) := by
  have hstop := stop.toNat_lt
  have hbehind (c : UInt32) : a + 1 ≤ c ↔ a < c := by
    rw [UInt32.lt_iff_toNat_lt] at h
    rw [UInt32.le_iff_toNat_le, UInt32.lt_iff_toNat_lt, UInt32.toNat_add, UInt32.toNat_one]
    omega
  simpa only [hbehind] using firstNamed_spec labels (a + 1) stop

/-- The next address at which data are cut: the first one behind an address that
has a name, or else the stop. -/
theorem cut_spec {labels : Labels} {a stop : UInt32} (h : a < stop) :
    ∃ cut, (firstNamed labels (a + 1) stop).getD stop = cut ∧ a < cut ∧ cut ≤ stop ∧
      (∀ c, a < c → c < cut → labels.names c = []) ∧ (cut ≠ stop → labels.names cut ≠ []) := by
  rcases firstNamed_behind h labels with ⟨b, hfound, hlow, hhigh, hnamed, hfront⟩ | ⟨hfound, hfront⟩
  · exact ⟨b, by rw [hfound, Option.getD_some], hlow, UInt32.le_of_lt hhigh, hfront,
      fun _ => hnamed⟩
  · exact ⟨stop, by rw [hfound, Option.getD_none], h, UInt32.le_refl stop, hfront,
      fun hne => absurd rfl hne⟩

/-! ## 2. Passes -/

/-- Where a listing stands between two passes: the offset it has come to, the
number of layouts behind it, and the lines so far. -/
structure Walk where
  cursor : UInt32
  next : Nat
  lines : Array String

/-- Nothing is written yet. -/
def Walk.start : Walk := ⟨0, 0, #[]⟩

/-- The lines with the labels at the cursor. -/
def Walk.labeled (labels : Labels) (w : Walk) : Array String :=
  w.lines ++ (labels.names w.cursor).map Listing.labelLine

/-- Writes data up to an offset, or to the first label in front of it. -/
def dataStep (image : Image) (labels : Labels) (w : Walk) (stop : UInt32) :
    Checked ListingError Walk := do
  let stop := (firstNamed labels (w.cursor + 1) stop).getD stop
  let bytes ← slice image w.cursor.toNat stop.toNat
  return ⟨stop, w.next, w.labeled labels ++ (← dataText bytes)⟩

/-- Writes the instruction of a layout.  It must have no label inside. -/
def codeStep (image : Image) (labels : Labels) (w : Walk) (l : Layout) :
    Checked ListingError Walk := do
  let i ← (decode image l).context .decode
  let text ← format labels i
  let cursor := w.cursor + UInt32.ofNat i.length
  match firstNamed labels (i.address + 1) cursor with
  | some a =>
    let name ← item (labels.names a).toArray 0
    .error (.reported (.labelInside name i.address.toNat))
  | none => return ⟨cursor, w.next + 1, (w.labeled labels).push ("    " ++ text ++ "\n")⟩

/-- One pass of a listing. -/
def pass (image : Image) (layouts : Array Layout) (labels : Labels) (w : Walk) :
    Checked ListingError Walk :=
  if w.next < layouts.size then do
    let l ← item layouts w.next
    if l.offset < w.cursor then .error (.reported (.overlap l.offset.toNat w.cursor.toNat))
    else if w.cursor < l.offset then dataStep image labels w l.offset
    else codeStep image labels w l
  else dataStep image labels w (UInt32.ofNat image.size)

/-! ## 3. What a pass does -/

/-- A pass writes data or one instruction. -/
inductive Step (image : Image) (layouts : Array Layout) (labels : Labels) (w : Walk) : Walk → Prop
  /-- Data go on behind the cursor and end in the image. -/
  | data {stop : UInt32} (ahead : w.cursor < stop) (inside : stop.toNat ≤ image.size) :
    Step image layouts labels w ⟨stop, w.next, w.labeled labels ++
      Listing.dataLines (image.extract w.cursor.toNat stop.toNat).toList⟩
  /-- An instruction is read from the next layout, which starts at the cursor, and
  has the length that the layout states, if it states one. -/
  | code {l : Layout} {i : Instruction} (layout : layouts[w.next]? = some l)
      (offset : l.offset = w.cursor) (read : Instruction.decode image l = .ok i)
      (stated : l.length ≠ 0 → (i.length : Int) = l.length) :
    Step image layouts labels w ⟨w.cursor + UInt32.ofNat i.length, w.next + 1,
      (w.labeled labels).push (Listing.codeLine labels i)⟩

section Step

variable {image : Image} {layouts : Array Layout} {labels : Labels} {w w' : Walk}

/-- The end of an instruction that was read does not wrap. -/
theorem toNat_stop_of_decode (hsize : image.size < 2 ^ 32) {l : Layout} {i : Instruction}
    (h : Instruction.decode image l = .ok i) :
    (l.offset + UInt32.ofNat i.length).toNat = l.offset.toNat + i.length := by
  have hinside := (Instruction.decode_inside h).2
  have hlength : (UInt32.ofNat i.length).toNat = i.length :=
    UInt32.toNat_ofNat_of_lt' (by simp only [UInt32.size]; omega)
  rw [UInt32.toNat_add, hlength]
  omega

/-- A pass moves the cursor forward, and not past the end of the image. -/
theorem Step.advances (hsize : image.size < 2 ^ 32) (h : Step image layouts labels w w') :
    w.cursor < w'.cursor ∧ w'.cursor.toNat ≤ image.size := by
  cases h with
  | data ahead inside => exact ⟨ahead, inside⟩
  | @code l i _ offset read _ =>
    obtain ⟨hpos, hinside⟩ := Instruction.decode_inside read
    have hstop := toNat_stop_of_decode hsize read
    rw [offset] at hinside hstop
    rw [UInt32.lt_iff_toNat_lt, hstop]
    exact ⟨by omega, hinside⟩

/-- Data are written up to the cut, if it lies in the image. -/
theorem dataStep_eq {stop cut : UInt32}
    (hcut : (firstNamed labels (w.cursor + 1) stop).getD stop = cut) (hlow : w.cursor < cut)
    (hinside : cut.toNat ≤ image.size) :
    dataStep image labels w stop = .ok ⟨cut, w.next, w.labeled labels ++
      Listing.dataLines (image.extract w.cursor.toNat cut.toNat).toList⟩ := by
  have hslice := @slice_natCast ListingError _ image w.cursor.toNat cut.toNat
    (Nat.le_of_lt (UInt32.lt_iff_toNat_lt.mp hlow)) hinside
  simp only [dataStep, hcut, hslice, dataText_eq, bind, Except.bind, pure, Except.pure]

theorem step_of_dataStep {stop : UInt32} (hstop : w.cursor < stop)
    (h : dataStep image labels w stop = .ok w') : Step image layouts labels w w' := by
  obtain ⟨cut, hcut, hlow, -⟩ := @cut_spec labels w.cursor stop hstop
  by_cases hinside : cut.toNat ≤ image.size
  · rw [dataStep_eq hcut hlow hinside, Except.ok.injEq] at h
    exact h ▸ .data hlow hinside
  · have hslice : slice image w.cursor.toNat cut.toNat =
        (.error .outOfBounds : Checked ListingError Image) := if_neg (by omega)
    simp [dataStep, hcut, hslice, bind, Except.bind] at h

theorem step_of_codeStep {l : Layout} (hl : layouts[w.next]? = some l)
    (hoffset : l.offset = w.cursor) (h : codeStep image labels w l = .ok w') :
    Step image layouts labels w w' := by
  simp only [codeStep, decode_eq, format_eq] at h
  cases hread : Instruction.decode image l with
  | error e => simp [hread, context, bind, Except.bind] at h
  | ok i =>
    simp only [hread, of_ok, context, bind, Except.bind] at h
    split at h
    · split at h <;> cases h
    · cases h
      exact .code hl hoffset hread (Instruction.decode_eq_ok_iff.mp hread).1.stated

/-- A pass does nothing else. -/
theorem step_of_pass (hplace : w.cursor.toNat < image.size) (hsize : image.size < 2 ^ 32)
    (h : pass image layouts labels w = .ok w') : Step image layouts labels w w' := by
  have htotal : (UInt32.ofNat image.size).toNat = image.size := UInt32.toNat_ofNat_of_lt' hsize
  unfold pass at h
  split at h
  · rename_i hnext
    have hl : layouts[w.next]? = some layouts[w.next] := Array.getElem?_eq_getElem hnext
    rw [item_natCast hl] at h
    simp only [bind, Except.bind] at h
    split at h
    · cases h
    · rename_i hbehind
      split at h
      · rename_i hahead
        exact step_of_dataStep hahead h
      · rename_i hahead
        exact step_of_codeStep hl
          (UInt32.le_antisymm (UInt32.not_lt.mp hahead) (UInt32.not_lt.mp hbehind)) h
  · refine step_of_dataStep ?_ h
    rwa [UInt32.lt_iff_toNat_lt, htotal]

theorem pass_advances (layouts : Array Layout) (labels : Labels) (hsize : image.size < 2 ^ 32) :
    Advances image.size (·.cursor.toNat) (pass image layouts labels) := fun _ _ hplace hpass =>
  UInt32.lt_iff_toNat_lt.mp ((step_of_pass hplace hsize hpass).advances hsize).1

end Step

/-! ## 4. Listings -/

/-- Makes passes up to the end of the image and puts the labels there. -/
def walk (image : Image) (hsize : image.size < 2 ^ 32) (layouts : Array Layout) (labels : Labels)
    (w : Walk) : Checked ListingError (Array String) :=
  loop image.size (·.cursor.toNat) (pass image layouts labels)
    (fun w => w.lines ++ (labels.names (UInt32.ofNat image.size)).map Listing.labelLine)
    (pass_advances layouts labels hsize) w

/-- An image as a source text, with its layouts taken in some order. -/
def listing (image : Image) (hsize : image.size < 2 ^ 32) (layouts sorted : List Layout)
    (labels : Labels) : Checked ListingError String :=
  let total := UInt32.ofNat image.size
  match layouts.find? fun l => total ≤ l.offset || total < l.stop with
  | some l => .error (.reported (.outside l.offset.toNat image.size))
  | none => (walk image hsize sorted.toArray labels .start).map fun lines =>
    String.join lines.toList

/-- The listing from where a walk stands. -/
def rest (image : Image) (labels : Labels) (sorted : List Layout) (w : Walk) :
    Checked ListingError (Array String) :=
  of (Listing.linesOnto image labels w.lines w.cursor.toNat (sorted.drop w.next))

theorem labeled_eq (labels : Labels) (w : Walk) :
    w.labeled labels = w.lines ++ Listing.labelLines labels w.cursor.toNat := by
  rw [Listing.labelLines_eq, Listing.nameList, UInt32.ofNat_toNat]
  rfl

theorem append_lists (xs : Array String) (ys zs : List String) :
    xs ++ (ys ++ zs) = xs ++ ys ++ zs := by
  simp [← Array.toList_inj]

theorem linesOnto_end {image : Image} {labels : Labels} {done : Array String} {ls : List Layout} :
    Listing.linesOnto image labels done image.size ls =
      .ok (done ++ Listing.labelLines labels image.size) := by
  cases ls with
  | nil => simp [Listing.linesOnto, Listing.regionLines]
  | cons l ls => simp [Listing.linesOnto]

section Listing

variable {image : Image} {labels : Labels} (hasc : Labels.Ascending labels.groups)
  (hsize : image.size < 2 ^ 32)

include hasc hsize

/-- Data go on to the cut, and from there on as before. -/
theorem regionLines_cut {start cut stop : UInt32} (hlow : start < cut) (hhigh : cut ≤ stop)
    (hfront : ∀ c, start < c → c < cut → labels.names c = [])
    (hnamed : cut ≠ stop → labels.names cut ≠ []) (hstop : stop.toNat ≤ image.size) :
    Listing.regionLines image labels start.toNat stop.toNat =
      Listing.labelLines labels start.toNat ++
        Listing.dataLines (image.extract start.toNat cut.toNat).toList ++
        Listing.regionLines image labels cut.toNat stop.toNat := by
  have hlt := UInt32.lt_iff_toNat_lt.mp hlow
  have hle := UInt32.le_iff_toNat_le.mp hhigh
  have hnone : ∀ n, start.toNat < n → n < cut.toNat → labels.names (UInt32.ofNat n) = [] := by
    intro n hn hncut
    have hword : (UInt32.ofNat n).toNat = n :=
      UInt32.toNat_ofNat_of_lt' (by simp only [UInt32.size]; omega)
    refine hfront _ ?_ ?_ <;> rw [UInt32.lt_iff_toNat_lt, hword] <;> assumption
  rw [Listing.regionLines, if_pos (by omega)]
  by_cases hend : cut = stop
  · subst hend
    rw [Labels.between_eq_nil hasc (by omega) hnone, Listing.pieceLines, Listing.regionLines,
      if_neg (Nat.lt_irrefl _), List.append_nil]
  · have hcut : cut.toNat < stop.toNat :=
      Nat.lt_of_le_of_ne hle fun heq => hend (UInt32.toNat_inj.mp heq)
    have hname : labels.names (UInt32.ofNat cut.toNat) ≠ [] := by
      rw [UInt32.ofNat_toNat]
      exact hnamed hend
    rw [Labels.between_eq_cons hasc (by omega) hlt hcut hname hnone, Listing.pieceLines,
      Listing.regionLines, if_pos hcut]

variable {sorted : List Layout} {w : Walk}

/-- Data up to the end of the image. -/
theorem rest_data_end (hplace : w.cursor.toNat < image.size) (hend : sorted.drop w.next = []) :
    rest image labels sorted w =
      dataStep image labels w (UInt32.ofNat image.size) >>= rest image labels sorted := by
  have htotal : (UInt32.ofNat image.size).toNat = image.size := UInt32.toNat_ofNat_of_lt' hsize
  have hlt : w.cursor < UInt32.ofNat image.size := by rwa [UInt32.lt_iff_toNat_lt, htotal]
  obtain ⟨cut, hcut, hlow, hhigh, hfront, hnamed⟩ := @cut_spec labels _ _ hlt
  have hinside := UInt32.le_iff_toNat_le.mp hhigh
  have hregion := regionLines_cut hasc hsize hlow hhigh hfront hnamed (Nat.le_of_eq htotal)
  rw [htotal] at hinside hregion
  simp only [dataStep_eq hcut hlow hinside, bind, Except.bind, rest, hend, Listing.linesOnto,
    hregion, labeled_eq, append_lists]

/-- Data up to the next layout. -/
theorem rest_data {l : Layout} {ls : List Layout} (hplace : w.cursor.toNat < image.size)
    (hls : sorted.drop w.next = l :: ls) (hl : l.offset.toNat < image.size)
    (hlt : w.cursor < l.offset) :
    rest image labels sorted w =
      dataStep image labels w l.offset >>= rest image labels sorted := by
  obtain ⟨cut, hcut, hlow, hhigh, hfront, hnamed⟩ := @cut_spec labels _ _ hlt
  have hle := UInt32.le_iff_toNat_le.mp hhigh
  have hoffset := UInt32.lt_iff_toNat_lt.mp hlt
  have hregion := regionLines_cut hasc hsize hlow hhigh hfront hnamed (Nat.le_of_lt hl)
  have hopen : ¬ image.size ≤ w.cursor.toNat := Nat.not_le.mpr hplace
  have hopen' : ¬ image.size ≤ cut.toNat := by omega
  have hapart : ¬ l.offset.toNat < w.cursor.toNat := by omega
  have hapart' : ¬ l.offset.toNat < cut.toNat := Nat.not_lt.mpr hle
  have hinside : cut.toNat ≤ image.size := by omega
  simp only [dataStep_eq hcut hlow hinside, bind, Except.bind, rest, hls,
    Listing.linesOnto, hopen, hopen', hapart, hapart', if_false, hregion, labeled_eq,
    append_lists]

/-- The instruction of a layout that starts at the cursor. -/
theorem rest_code {l : Layout} {ls : List Layout} (hplace : w.cursor.toNat < image.size)
    (hls : sorted.drop w.next = l :: ls) (hoffset : l.offset = w.cursor) :
    rest image labels sorted w = codeStep image labels w l >>= rest image labels sorted := by
  have hopen : ¬ image.size ≤ w.cursor.toNat := Nat.not_le.mpr hplace
  have hnext : sorted.drop (w.next + 1) = ls := by
    rw [← List.drop_drop, hls, List.drop_one, List.tail_cons]
  simp only [rest, hls, Listing.linesOnto, hoffset, hopen, if_false, Nat.lt_irrefl, codeStep,
    decode_eq]
  cases hread : Instruction.decode image l with
  | error e => rfl
  | ok i =>
    have hpos := (Instruction.decode_inside hread).1
    have haddress := (Instruction.decode_eq_ok_iff.mp hread).1.address
    have hcursor := toNat_stop_of_decode hsize hread
    rw [hoffset] at haddress hcursor
    have hlt : w.cursor < w.cursor + UInt32.ofNat i.length := by
      rw [UInt32.lt_iff_toNat_lt, hcursor]
      omega
    simp only [of_ok, context, format_eq, bind, Except.bind, haddress]
    rcases firstNamed_behind hlt labels with ⟨b, hfound, hlow, hhigh, hnamed, hfront⟩ |
      ⟨hfound, hfront⟩
    · rw [UInt32.lt_iff_toNat_lt] at hlow hhigh
      rw [hcursor] at hhigh
      have hfirst := Labels.firstBetween?_eq_head? hasc hlow hhigh
        (fun c hc hcb => hfront c (UInt32.lt_iff_toNat_lt.mpr hc) (UInt32.lt_iff_toNat_lt.mpr hcb))
        hnamed
      obtain ⟨name, names, hnames⟩ := List.exists_cons_of_ne_nil hnamed
      rw [hnames] at hfirst
      simp only [hfirst, hfound, hnames, List.head?_cons]
      rfl
    · have hfirst := @Labels.firstBetween?_eq_none labels hasc w.cursor.toNat
        (w.cursor.toNat + i.length) fun c hc hcs => hfront c (UInt32.lt_iff_toNat_lt.mpr hc)
          (by rwa [UInt32.lt_iff_toNat_lt, hcursor])
      simp only [hfirst, hfound, pure, Except.pure, hcursor, hnext, Listing.regionLines,
        Nat.lt_irrefl, if_false, labeled_eq, rest]
      simp

/-- A pass leaves the listing as it is. -/
theorem rest_pass (hinside : ∀ l ∈ sorted, l.offset.toNat < image.size)
    (hplace : w.cursor.toNat < image.size) :
    rest image labels sorted w =
      pass image sorted.toArray labels w >>= rest image labels sorted := by
  unfold pass
  split
  · rename_i hnext
    rw [List.size_toArray] at hnext
    have hl : sorted.toArray[w.next]? = some sorted[w.next] := by simp [hnext]
    have hls := List.drop_eq_getElem_cons hnext
    have hmem := hinside _ (List.getElem_mem hnext)
    rw [item_natCast hl]
    generalize sorted[w.next] = l at hls hmem
    by_cases hbehind : l.offset < w.cursor
    · have hlt := UInt32.lt_iff_toNat_lt.mp hbehind
      have hopen : ¬ image.size ≤ w.cursor.toNat := Nat.not_le.mpr hplace
      simp [rest, hls, Listing.linesOnto, hopen, hlt, hbehind, bind, Except.bind]
    · by_cases hahead : w.cursor < l.offset
      · rw [rest_data hasc hsize hplace hls hmem hahead]
        simp [hbehind, hahead, bind, Except.bind]
      · rw [rest_code hasc hsize hplace hls
          (UInt32.le_antisymm (UInt32.not_lt.mp hahead) (UInt32.not_lt.mp hbehind))]
        simp [hbehind, hahead, bind, Except.bind]
  · rename_i hnext
    exact rest_data_end hasc hsize hplace (List.drop_eq_nil_of_le (by simpa using hnext))

theorem walk_eq (hinside : ∀ l ∈ sorted, l.offset.toNat < image.size) :
    walk image hsize sorted.toArray labels .start =
      of (Listing.linesOnto image labels #[] 0 sorted) := by
  refine loop_eq (pass_advances sorted.toArray labels hsize)
    (fun w w' _ hplace hpass => ((step_of_pass hplace hsize hpass).advances hsize).2)
    (fun w hle hend => ?_) (fun w _ hplace => rest_pass hasc hsize hinside hplace) Walk.start
    (Nat.zero_le _)
  have hcursor : w.cursor.toNat = image.size := by
    have hle : w.cursor.toNat ≤ image.size := hle
    omega
  rw [rest, hcursor, linesOnto_end]
  rfl

omit hasc in
/-- The layout that lies outside is found in 32-bit arithmetic. -/
theorem find?_outside (layouts : List Layout) :
    layouts.find?
        (fun l => UInt32.ofNat image.size ≤ l.offset || UInt32.ofNat image.size < l.stop) =
      Listing.outside? image.size layouts := by
  have htotal : (UInt32.ofNat image.size).toNat = image.size := UInt32.toNat_ofNat_of_lt' hsize
  simp only [Listing.outside?, UInt32.le_iff_toNat_le, UInt32.lt_iff_toNat_lt, htotal]

/-- Layouts in any order give a text or an error that is reported; in order of
offset they give the listing. -/
theorem exists_listing_eq {layouts : List Layout} (hperm : sorted.Perm layouts) :
    ∃ result, listing image hsize layouts sorted labels = of result ∧
      (sorted = Listing.byOffset layouts → result = disassemble image layouts labels) := by
  simp only [listing, find?_outside hsize, disassemble, disassembleInOrder]
  cases houtside : Listing.outside? image.size layouts with
  | some l => exact ⟨_, rfl, fun _ => rfl⟩
  | none =>
    have hinside (l : Layout) (hl : l ∈ sorted) : l.offset.toNat < image.size :=
      (Listing.outside?_eq_none_iff.mp houtside l (hperm.mem_iff.mp hl)).1
    refine ⟨(Listing.linesOnto image labels #[] 0 sorted).map fun lines => String.join lines.toList,
      ?_, by rintro rfl; rfl⟩
    simp only [walk_eq hasc hsize hinside]
    cases Listing.linesOnto image labels #[] 0 sorted <;> rfl

end Listing

end Checked

open Checked

/-- Whatever layouts and labels say, an image shorter than 2 ^ 32 bytes is read and
listed without an access out of bounds: by index the same instructions and the
same text or error are found.  This holds in whatever order layouts at one offset
are taken, and of layouts that are not in order at all.  The cursor of a listing
never passes the end of the image, each pass moves it forward, and an
instruction that is written has the length that its layout states, unless that
is zero. -/
theorem disassemble_within_bounds {image : Image} {labels : Labels}
    (hasc : Labels.Ascending labels.groups) (hsize : image.size < 2 ^ 32) (layouts : List Layout) :
    (∀ l, Checked.decode image l = .of (Instruction.decode image l)) ∧
    listing image hsize layouts (Listing.byOffset layouts) labels =
      .of (disassemble image layouts labels) ∧
    ∀ sorted : List Layout, sorted.Perm layouts →
      listing image hsize layouts sorted labels ≠ .error .outOfBounds ∧
      ∀ w, Reached image.size (·.cursor.toNat) (pass image sorted.toArray labels) Walk.start w →
        w.cursor.toNat ≤ image.size ∧
        ∀ w', w.cursor.toNat < image.size → pass image sorted.toArray labels w = .ok w' →
          w.cursor < w'.cursor ∧ Step image sorted.toArray labels w w' := by
  refine ⟨decode_eq image, ?_, fun sorted hperm =>
    ⟨?_, fun w hw => ⟨?_, fun w' hplace hpass => ?_⟩⟩⟩
  · obtain ⟨result, hlisting, hresult⟩ :=
      exists_listing_eq hasc hsize (Listing.perm_byOffset layouts)
    rw [hlisting, hresult rfl]
  · obtain ⟨result, hlisting, -⟩ := exists_listing_eq hasc hsize hperm
    rw [hlisting]
    exact of_ne_outOfBounds result
  · have hkept (v v' : Walk) (_ : v.cursor.toNat ≤ image.size)
        (hplace : v.cursor.toNat < image.size)
        (hpass : pass image sorted.toArray labels v = .ok v') : v'.cursor.toNat ≤ image.size :=
      ((step_of_pass hplace hsize hpass).advances hsize).2
    exact hw.keeps hkept (Nat.zero_le _)
  · have hstep := step_of_pass hplace hsize hpass
    exact ⟨(hstep.advances hsize).1, hstep⟩

/-- A move of 5 to the first register and a halt. -/
def moveAndHalt : Image := #[1, 4, 0, 0, 5, 0x3C]

/-- Layouts for it out of order: a length past 2 ^ 32 whose stop wraps into the
image, and a width as low as a file can state. -/
def hostileLayouts : List Layout := [⟨5, 4294967297, []⟩, ⟨0, 0, [1, -9223372036854775808]⟩]

/-- A name inside the move and one as far behind the image as can be. -/
def hostileLabels : Labels := .ofSymbols [⟨"inside", 2⟩, ⟨"far", 0xFFFFFFFF⟩]

theorem disassemble_within_bounds_hostileLayouts :
    disassemble moveAndHalt hostileLayouts hostileLabels =
        .error (.decode (.operand 2 0 (.immediateWidth (-9223372036854775808)))) ∧
      listing moveAndHalt (by decide) hostileLayouts (Listing.byOffset hostileLayouts)
          hostileLabels =
        .error (.reported (.decode (.operand 2 0 (.immediateWidth (-9223372036854775808))))) ∧
      listing moveAndHalt (by decide) hostileLayouts hostileLayouts hostileLabels ≠
        .error .outOfBounds := by
  have herror : disassemble moveAndHalt hostileLayouts hostileLabels =
      .error (.decode (.operand 2 0 (.immediateWidth (-9223372036854775808)))) := by
    decide +kernel
  obtain ⟨-, hlisting, hany⟩ := @disassemble_within_bounds moveAndHalt hostileLabels
    (Labels.ascending_ofSymbols _) (by decide) hostileLayouts
  exact ⟨herror, by rw [hlisting, herror]; rfl, (hany _ (List.Perm.refl _)).1⟩

end RegAsm
