/-
RegAsm.Proofs.LabelMap — labels grouped by address.

The groups stand in ascending order, and the names in a group are those of the
symbols at its address, in order of declaration (`names_ofSymbols`).  All that
a listing asks of the groups is then known from the names: where data have to
be cut (`between_eq`) and whether a label falls into an instruction
(`firstBetween?_eq_none`).

1. Insertion.
2. Names at an address.
3. Addresses between two others.
4. The name to print for an address.
-/
import Mathlib
import RegAsm.Symbol.Labels

namespace RegAsm.Labels

/-! ## 1. Insertion -/

/-- The groups stand in ascending order of their addresses. -/
def Ascending (groups : List (UInt32 × List String)) : Prop := groups.Pairwise (·.1 < ·.1)

section Insertion

variable {groups : List (UInt32 × List String)} {s : Symbol} {a : UInt32}

theorem mem_insert {g : UInt32 × List String} (h : g ∈ insert s groups) :
    g.1 = s.address ∨ ∃ g' ∈ groups, g'.1 = g.1 := by
  induction groups with
  | nil => exact .inl (by simpa [insert] using congrArg Prod.fst (List.mem_singleton.mp h))
  | cons first rest ih =>
    obtain ⟨address, names⟩ := first
    rw [insert] at h
    split at h
    · rcases List.mem_cons.mp h with rfl | h
      · exact .inl rfl
      · exact .inr ⟨g, h, rfl⟩
    · split at h
      · rcases List.mem_cons.mp h with rfl | h
        · exact .inr ⟨_, List.mem_cons_self, rfl⟩
        · exact .inr ⟨g, List.mem_cons_of_mem _ h, rfl⟩
      · rcases List.mem_cons.mp h with rfl | h
        · exact .inr ⟨_, List.mem_cons_self, rfl⟩
        · rcases ih h with h | ⟨g', hg', h⟩
          · exact .inl h
          · exact .inr ⟨g', List.mem_cons_of_mem _ hg', h⟩

theorem Ascending.insert (h : Ascending groups) (s : Symbol) : Ascending (insert s groups) := by
  induction groups with
  | nil => exact List.pairwise_singleton _ _
  | cons first rest ih =>
    obtain ⟨address, names⟩ := first
    obtain ⟨hfirst, hrest⟩ := List.pairwise_cons.mp h
    rw [Labels.insert]
    split
    · rename_i hlt
      refine List.pairwise_cons.mpr ⟨fun g hg => ?_, h⟩
      rcases List.mem_cons.mp hg with rfl | hg
      · exact hlt
      · exact UInt32.lt_trans hlt (hfirst g hg)
    · rename_i hge
      split
      · exact List.pairwise_cons.mpr ⟨hfirst, hrest⟩
      · rename_i hne
        have hgt : address < s.address :=
          UInt32.lt_of_le_of_ne (UInt32.not_lt.mp hge) (Ne.symm hne)
        refine List.pairwise_cons.mpr ⟨fun g hg => ?_, ih hrest⟩
        rcases mem_insert hg with h | ⟨g', hg', h⟩
        · exact h ▸ hgt
        · exact h ▸ hfirst g' hg'

theorem lookup_eq_none_of_lt (h : ∀ g ∈ groups, a < g.1) : groups.lookup a = none := by
  rw [List.lookup_eq_none_iff]
  intro g hg
  have hlt := h g hg
  simp only [bne_iff_ne, ne_eq]
  rintro rfl
  exact UInt32.lt_irrefl _ hlt

theorem lookup_cons_eq (address : UInt32) (names : List String) :
    List.lookup a ((address, names) :: groups) =
      if address = a then some names else groups.lookup a := by
  rw [List.lookup_cons]
  by_cases h : address = a
  · simp [h]
  · have hne : (a == address) = false := beq_eq_false_iff_ne.mpr (Ne.symm h)
    rw [hne, if_neg h]

theorem lookup_insert (h : Ascending groups) :
    ((insert s groups).lookup a).getD [] =
      if s.address = a then s.name :: (groups.lookup a).getD [] else (groups.lookup a).getD [] := by
  induction groups with
  | nil =>
    rw [insert, lookup_cons_eq]
    by_cases ha : s.address = a <;> simp [ha]
  | cons first rest ih =>
    obtain ⟨address, names⟩ := first
    obtain ⟨hfirst, hrest⟩ := List.pairwise_cons.mp h
    rw [insert]
    split
    · rename_i hlt
      rw [lookup_cons_eq]
      by_cases ha : s.address = a
      · subst ha
        have hnone : List.lookup s.address ((address, names) :: rest) = none := by
          refine lookup_eq_none_of_lt fun g hg => ?_
          rcases List.mem_cons.mp hg with rfl | hg
          · exact hlt
          · exact UInt32.lt_trans hlt (hfirst g hg)
        simp [hnone]
      · rw [if_neg ha, if_neg ha]
    · split
      · rename_i heq
        rw [lookup_cons_eq, lookup_cons_eq, heq]
        by_cases ha : address = a <;> simp [ha]
      · rename_i hne
        rw [lookup_cons_eq, lookup_cons_eq]
        by_cases ha : address = a
        · simp [ha, ha ▸ hne]
        · simpa [ha] using ih hrest

end Insertion

/-! ## 2. Names -/

theorem ascending_ofSymbols (symbols : List Symbol) : Ascending (ofSymbols symbols).groups := by
  induction symbols with
  | nil => exact List.Pairwise.nil
  | cons s rest ih => exact ih.insert s

/-- The names at an address are those of the symbols there, in order. -/
theorem names_ofSymbols (symbols : List Symbol) (a : UInt32) :
    (ofSymbols symbols).names a = (symbols.filter (·.address = a)).map (·.name) := by
  induction symbols with
  | nil => rfl
  | cons s rest ih =>
    have hcons : (ofSymbols (s :: rest)).names a =
        ((insert s (ofSymbols rest).groups).lookup a).getD [] := rfl
    rw [hcons, lookup_insert (ascending_ofSymbols rest)]
    by_cases ha : s.address = a
    · simp only [ha, if_true, List.filter_cons, decide_true, List.map_cons]
      exact congrArg _ ih
    · simp only [ha, if_false, List.filter_cons, decide_false]
      exact ih

/-! ## 3. Addresses -/

section Between

variable {l : Labels} (h : Ascending l.groups)

include h

theorem names_eq_of_mem {g : UInt32 × List String} (hg : g ∈ l.groups) : l.names g.1 = g.2 := by
  unfold names
  revert h
  generalize l.groups = groups at hg
  intro h
  induction groups with
  | nil => cases hg
  | cons first rest ih =>
    obtain ⟨hfirst, hrest⟩ := List.pairwise_cons.mp h
    rw [List.lookup_cons]
    rcases List.mem_cons.mp hg with rfl | hg
    · simp
    · have hne : (g.1 == first.1) = false := by
        rw [beq_eq_false_iff_ne]
        intro heq
        exact UInt32.lt_irrefl _ (heq ▸ hfirst g hg)
      rw [hne]
      exact ih hg hrest

/-- No name lies between two addresses if there is none at any of them. -/
theorem firstBetween?_eq_none {low high : Nat}
    (hnone : ∀ a : UInt32, low < a.toNat → a.toNat < high → l.names a = []) :
    l.firstBetween? low high = none := by
  rw [firstBetween?, List.findSome?_eq_none_iff]
  rintro ⟨address, names⟩ hg
  simp only [ite_eq_right_iff]
  rintro ⟨hlow, hhigh⟩
  have hnames : l.names address = names := names_eq_of_mem h hg
  rw [← hnames, hnone address hlow hhigh]
  rfl

omit h in
/-- If no name lies between two addresses there is none at any of them. -/
theorem names_of_firstBetween? {low high : Nat} (hnone : l.firstBetween? low high = none)
    {a : UInt32} (hlow : low < a.toNat) (hhigh : a.toNat < high) : l.names a = [] := by
  cases hfind : l.groups.lookup a with
  | none => rw [names, hfind, Option.getD_none]
  | some names =>
    obtain ⟨xs, ys, hgroups, -⟩ := List.lookup_eq_some_iff.mp hfind
    have hg : (a, names) ∈ l.groups := by simp [hgroups]
    have hhead : (if low < a.toNat ∧ a.toNat < high then names.head? else none) = none :=
      List.findSome?_eq_none_iff.mp hnone (a, names) hg
    rw [if_pos ⟨hlow, hhigh⟩, List.head?_eq_none_iff] at hhead
    rw [Labels.names, hfind, Option.getD_some, hhead]

theorem mem_between {low high n : Nat} :
    n ∈ l.between low high ↔
      low < n ∧ n < high ∧ ∃ a : UInt32, a.toNat = n ∧ l.names a ≠ [] := by
  simp only [between, List.mem_map, List.mem_filter, decide_eq_true_eq]
  constructor
  · rintro ⟨g, ⟨hg, hlow, hhigh, hne⟩, rfl⟩
    exact ⟨hlow, hhigh, g.1, rfl, by rwa [names_eq_of_mem h hg]⟩
  · rintro ⟨hlow, hhigh, a, rfl, hne⟩
    cases hfind : l.groups.lookup a with
    | none => simp [names, hfind] at hne
    | some names =>
      have hnames : l.names a = names := by simp [Labels.names, hfind]
      obtain ⟨xs, ys, hgroups, -⟩ := List.lookup_eq_some_iff.mp hfind
      have hg : (a, names) ∈ l.groups := by simp [hgroups]
      exact ⟨(a, names), ⟨hg, hlow, hhigh, hnames ▸ hne⟩, rfl⟩

/-- The addresses with a name between two others are found by looking at each
of them. -/
theorem between_eq {low high : Nat} (hhigh : high ≤ 2 ^ 32) :
    l.between low high =
      (List.range' (low + 1) (high - low - 1)).filter fun n =>
        l.names (UInt32.ofNat n) ≠ [] := by
  have hbetween : (l.between low high).Pairwise (· < ·) := by
    rw [between, List.pairwise_map]
    exact (List.Pairwise.filter _ h).imp fun hlt => UInt32.lt_iff_toNat_lt.mp hlt
  refine hbetween.eq_of_mem_iff (List.Pairwise.filter _ List.pairwise_lt_range') fun n => ?_
  rw [mem_between h, List.mem_filter, List.mem_range'_1, decide_eq_true_eq]
  constructor
  · rintro ⟨hlow, hn, a, rfl, hne⟩
    refine ⟨by omega, ?_⟩
    rwa [UInt32.ofNat_toNat]
  · rintro ⟨hrange, hne⟩
    have hn : n < high := by omega
    have hlt : n < UInt32.size := Nat.lt_of_lt_of_le hn hhigh
    exact ⟨by omega, hn, UInt32.ofNat n, UInt32.toNat_ofNat_of_lt' hlt, hne⟩

end Between

/-! ## 4. The name to print -/

theorem mem_names_of_best? {labels : Labels} {a : UInt32} {name : String}
    (h : labels.best? a = some name) : name ∈ labels.names a := by
  rw [best?] at h
  split at h
  · rename_i hfind
    cases h
    exact List.mem_of_find?_eq_some hfind
  · exact List.mem_of_mem_head? h

theorem exists_best? {labels : Labels} {a : UInt32} {name : String}
    (h : name ∈ labels.names a) : ∃ n, labels.best? a = some n := by
  rw [best?]
  split
  · exact ⟨_, rfl⟩
  · exact ⟨_, List.head?_eq_some_head (List.ne_nil_of_mem h)⟩

end RegAsm.Labels
