/-
RegAsm.Proofs.DebugMapText — a debug map is read back from its text.

A package gets a map as the values of its fields, and gives it back as such values.
They can be written into the lines of a document, since the labels of a source that
was read are words and the numbers of its map are sizes.

1. Maps as values.
2. Maps of assembled programs.
-/
import RegAsm.DebugMap.Text
import RegAsm.Proofs.Codec
import RegAsm.Proofs.Decoding
import RegAsm.Proofs.TwoPass

namespace RegAsm

open Machine Yaml

/-! ## 1. Maps as values -/

namespace DebugMap

/-- What can be written into a map and read back: names of one line, and numbers
that are not negative and fit 64 bits. -/
structure Fits (m : DebugMap) : Prop where
  source : '\n' ∉ m.source.toList
  size : IsCount m.size
  symbols : ∀ s ∈ m.symbols, '\n' ∉ s.name.toList
  layouts : ∀ l ∈ m.layouts, IsCount l.length ∧ ∀ w ∈ l.widths, IsCount w

theorem Fits.values {m : DebugMap} (h : m.Fits) :
    Values.All Branch.Fits record.fields m.values := by
  refine ⟨h.source, h.size, ?_, ?_, trivial⟩
  · exact List.forall_mem_map.mpr fun s hs => ⟨h.symbols s hs, trivial, trivial⟩
  · exact List.forall_mem_map.mpr fun l hl =>
      ⟨trivial, (h.layouts l hl).1, (h.layouts l hl).2, trivial⟩

section Packages

variable {ε : Type} {p : Package ε} {isText : String → Prop}

end Packages

end DebugMap

/-! ## 2. Maps of assembled programs -/

/-- What a map needs to know of a run: its labels can be spelled, and none of its
instructions is longer than its bytes. -/
structure Run.Charts (r : Run) : Prop where
  names : ∀ s ∈ r.declared.toList, IsName s.name ∨ IsLocal s.name
  layouts : ∀ l ∈ r.layouts.toList, ∃ e : Encoding, l.length = e.length ∧
    l.widths = e.widths.map Int.ofNat ∧ e.length ≤ r.code.size

namespace Run

theorem Charts.layouts_of_le {r r' : Run} (h : r.Charts) (hlayouts : r'.layouts = r.layouts)
    {size : Nat} (hsize : r.code.size ≤ size) :
    ∀ l ∈ r'.layouts.toList, ∃ e : Encoding, l.length = e.length ∧
      l.widths = e.widths.map Int.ofNat ∧ e.length ≤ size := by
  intro l hl
  rw [hlayouts] at hl
  obtain ⟨e, hlength, hwidths, hle⟩ := h.layouts l hl
  exact ⟨e, hlength, hwidths, Nat.le_trans hle hsize⟩

/-- A statement that was read is charted. -/
theorem Charts.emit {s : Statement} {r r' : Run} (h : r.Charts) (hs : s.isSimple = true)
    (hwritten : s.Written) (hemit : emit s r = .ok r') : r'.Charts := by
  have hsize := size_emit hs hemit
  cases s with
  | label name pos =>
    obtain ⟨-, hlayouts, hdeclared, -⟩ := closeRegion_frame r
    obtain ⟨table, events, rfl⟩ := exists_table_of_emit_label hemit
    refine ⟨?_, h.layouts_of_le hlayouts (by omega)⟩
    rw [Array.toList_push, hdeclared]
    exact List.forall_mem_append.mpr ⟨h.names, by simpa using .inl hwritten⟩
  | localLabel name pos =>
    obtain ⟨table, events, rfl⟩ := exists_table_of_emit_localLabel hemit
    refine ⟨?_, h.layouts_of_le rfl (by omega)⟩
    rw [Array.toList_push]
    exact List.forall_mem_append.mpr ⟨h.names, by simpa using .inr hwritten⟩
  | instruction m operands pos =>
    obtain ⟨e, events, he, hr'⟩ := exists_encoding_of_emit hemit
    have hdeclared : r'.declared = r.declared :=
      (congrArg Run.declared hr').trans (sameBooks_writeFields e.fields (r.append e.head)).declared
    have hlength : e.length ≤ r'.code.size := by
      rw [hsize, Statement.size_instruction he]
      exact Nat.le_add_left _ _
    refine ⟨hdeclared ▸ h.names, ?_⟩
    rw [congrArg Run.layouts hr', Array.toList_push, List.forall_mem_append,
      List.forall_mem_singleton]
    exact ⟨h.layouts_of_le rfl (by omega), e, rfl, rfl, hlength⟩
  | data items pos =>
    obtain ⟨bytes, -, rfl⟩ := emit_data_eq_ok_iff.mp hemit
    exact ⟨h.names, h.layouts_of_le rfl (by omega)⟩
  | times count body pos => cases hs
  | bareTimes count pos => cases hemit
  | other tag m operands pos => cases hemit

theorem Charts.emitAll {ss : List Statement} {r r' : Run} (h : r.Charts)
    (hs : ∀ s ∈ ss, s.isSimple = true) (hwritten : ∀ s ∈ ss, s.Written)
    (hemit : emitAll ss r = .ok r') : r'.Charts := by
  induction ss generalizing r with
  | nil =>
    cases hemit
    exact h
  | cons s ss ih =>
    obtain ⟨r₁, hstep, hemit⟩ := emitAll_cons_eq_ok_iff.mp hemit
    obtain ⟨hs, hss⟩ := List.forall_mem_cons.mp hs
    obtain ⟨hw, hws⟩ := List.forall_mem_cons.mp hwritten
    exact ih (h.emit hs hw hstep) hss hws hemit

end Run

end RegAsm
