/-
RegAsm.Proofs.Vocabulary — the words that the tables have.

A word is a register if the table of registers has it as it stands, and else a
keyword if the table of keywords has it up to the case of its letters
(`registerEntry_eq_some`, `keywordEntry_eq_some`).  All entries are in plain
capitals, no two of one table are the same and no keyword is a register, so each
entry is a word that is read as itself, and so is a keyword in lower case.

1. Words up to case.
2. Registers.
3. Keywords.
-/
import RegAsm.Proofs.Words

namespace RegAsm

open Machine Recognizer

/-! ## 1. Words up to case -/

/-- The first entry that satisfies something is the only one that does. -/
theorem find?_eq_some_of_unique {entries : List Entry} {p : Entry → Bool} {e : Entry}
    (hmem : e ∈ entries) (hp : p e = true) (hunique : ∀ e' ∈ entries, p e' = true → e' = e) :
    entries.find? p = some e := by
  cases hfind : entries.find? p with
  | none => exact absurd hp (by simpa using List.find?_eq_none.mp hfind e hmem)
  | some e' =>
    rw [hunique e' (List.mem_of_find?_eq_some hfind) (List.find?_some hfind)]

/-- Two words of one length that are the same in upper case, character by character. -/
def SameLetters : List Char → List Char → Prop :=
  List.Forall₂ fun a b => Text.upperCase a = Text.upperCase b

theorem spellsWord_folded_iff {spelling w : List Char} :
    spellsWord sameFolded spelling w = true ↔ SameLetters w spelling := by
  rw [spellsWord_iff]
  simp only [sameFolded_iff, SameLetters]

theorem sameLetters_iff {w v : List Char} :
    SameLetters w v ↔ w.map Text.upperCase = v.map Text.upperCase := by
  rw [SameLetters, ← List.forall₂_eq_eq_eq, List.forall₂_map_left_iff, List.forall₂_map_right_iff]

theorem SameLetters.symm_trans {w v v' : List Char} (h : SameLetters w v) (h' : SameLetters w v') :
    SameLetters v v' :=
  sameLetters_iff.mpr ((sameLetters_iff.mp h).symm.trans (sameLetters_iff.mp h'))

/-- What has plain capitals as its counterparts is a word. -/
theorem isWord_of_upperCase {w : List Char} (hne : w ≠ [])
    (h : ∀ c ∈ w, Text.isCapital (Text.upperCase c) = true) : IsWord w := by
  refine ⟨?_, fun c hc => isNameChar_of_upperCase (h c hc)⟩
  obtain ⟨c, tail, rfl⟩ := List.exists_cons_of_ne_nil hne
  refine ⟨c, tail, rfl, ?_⟩
  rw [startsName, Text.isLetter_of_upperCase (h c List.mem_cons_self), Bool.true_or]

theorem isWord_capitals {w : List Char} (hne : w ≠ [])
    (h : ∀ c ∈ w, Text.isCapital c = true) : IsWord w := by
  refine isWord_of_upperCase hne fun c hc => ?_
  rw [Text.upperCase_capital (h c hc)]
  exact h c hc

/-- No word is in the tables twice. -/
theorem tables_nodup : (Register.names ++ Mnemonic.names).Nodup := by
  -- Numbers are compared at once, words character by character.
  refine List.Nodup.of_map (fun name => name.toList.foldl (fun n c => 128 * n + c.toNat) 0) ?_
  decide +kernel

/-! ## 2. Registers -/

theorem register_index_unique {i j : Nat} {name : String} (hi : Register.names[i]? = some name)
    (hj : Register.names[j]? = some name) : i = j := by
  obtain ⟨hlt, -⟩ := List.getElem?_eq_some_iff.mp hi
  exact (List.getElem?_inj hlt (List.Nodup.of_append_left tables_nodup)).mp (hi.trans hj.symm)

/-- A word has the register of its exact spelling. -/
theorem registerEntry_eq_some {w : List Char} {i : Nat}
    (h : Register.names[i]? = some (String.ofList w)) : registerWord? w = some ⟨w, i⟩ := by
  refine find?_eq_some_of_unique (mem_byLength_iff.mpr h) (spellsWord_eq_iff.mpr rfl) ?_
  rintro ⟨text, j⟩ hmem hspells
  obtain rfl := spellsWord_eq_iff.mp hspells
  rw [register_index_unique h (mem_byLength_iff.mp hmem)]

theorem registerEntry_eq_none {w : List Char} (h : String.ofList w ∉ Register.names) :
    registerWord? w = none := by
  rw [registerWord?, List.find?_eq_none]
  rintro ⟨text, j⟩ hmem hspells
  obtain rfl := spellsWord_eq_iff.mp hspells
  exact h (List.mem_of_getElem? (mem_byLength_iff.mp hmem))

/-- Each register is read as itself. -/
theorem wordToken_registerEntry {e : Entry} (he : e ∈ byLength Register.names) :
    IsWord e.text ∧ wordToken e.text = entryToken .register e := by
  have hcapitals := register_capitals (mem_of_mem_byLength he)
  rw [String.toList_ofList] at hcapitals
  exact ⟨isWord_capitals hcapitals.1 hcapitals.2,
    wordToken_of_register (registerEntry_eq_some (mem_byLength_iff.mp he))⟩

/-! ## 3. Keywords -/

theorem map_upperCase_keyword {name : String} (h : name ∈ Mnemonic.names) :
    name.toList.map Text.upperCase = name.toList := by
  have hsame : ∀ c ∈ name.toList, Text.upperCase c = id c :=
    fun c hc => Text.upperCase_capital ((keyword_capitals h).2 c hc)
  rw [List.map_congr_left hsame, List.map_id]

/-- No two keywords are the same up to case. -/
theorem keyword_index_unique {i j : Nat} {name name' : String}
    (hi : Mnemonic.names[i]? = some name) (hj : Mnemonic.names[j]? = some name')
    (h : SameLetters name.toList name'.toList) : i = j := by
  rw [sameLetters_iff, map_upperCase_keyword (List.mem_of_getElem? hi),
    map_upperCase_keyword (List.mem_of_getElem? hj)] at h
  obtain rfl := String.toList_injective h
  obtain ⟨hlt, -⟩ := List.getElem?_eq_some_iff.mp hi
  exact (List.getElem?_inj hlt (List.Nodup.of_append_right tables_nodup)).mp (hi.trans hj.symm)

/-- A word has the keyword that it spells up to case. -/
theorem keywordEntry_eq_some {w : List Char} {i : Nat} {name : String}
    (h : Mnemonic.names[i]? = some name) (hsame : SameLetters w name.toList) :
    keywordWord? w = some ⟨name.toList, i⟩ := by
  refine find?_eq_some_of_unique (mem_byLength_iff.mpr (by simpa using h))
    (spellsWord_folded_iff.mpr hsame) ?_
  rintro ⟨text, j⟩ hmem hspells
  have hj := mem_byLength_iff.mp hmem
  have hsame' : SameLetters name.toList (String.ofList text).toList := by
    rw [String.toList_ofList]
    exact hsame.symm_trans (spellsWord_folded_iff.mp hspells)
  obtain rfl := keyword_index_unique h hj hsame'
  simp only at hj
  rw [h, Option.some.injEq] at hj
  rw [hj, String.toList_ofList]

theorem keywordEntry_eq_none {w : List Char}
    (h : ∀ name ∈ Mnemonic.names, ¬ SameLetters w name.toList) : keywordWord? w = none := by
  rw [keywordWord?, List.find?_eq_none]
  rintro ⟨text, j⟩ hmem hspells
  refine h _ (List.mem_of_getElem? (mem_byLength_iff.mp hmem)) ?_
  rw [String.toList_ofList]
  exact spellsWord_folded_iff.mp hspells

theorem keyword_notMem_registers {name : String} (h : name ∈ Mnemonic.names) :
    name ∉ Register.names :=
  fun hregister => List.disjoint_of_nodup_append tables_nodup hregister h

/-- Each keyword is read as itself. -/
theorem wordToken_keywordEntry {e : Entry} (he : e ∈ byLength Mnemonic.names) :
    IsWord e.text ∧ wordToken e.text = entryToken .mnemonic e := by
  have hmem := mem_of_mem_byLength he
  have hcapitals := keyword_capitals hmem
  rw [String.toList_ofList] at hcapitals
  have hentry : keywordWord? e.text = some e := by
    have hsame : SameLetters e.text (String.ofList e.text).toList := by
      rw [String.toList_ofList, sameLetters_iff]
    rw [keywordEntry_eq_some (mem_byLength_iff.mp he) hsame, String.toList_ofList]
  exact ⟨isWord_capitals hcapitals.1 hcapitals.2,
    wordToken_of_keyword (registerEntry_eq_none (keyword_notMem_registers hmem)) hentry⟩

/-- A keyword in lower case is not a register. -/
theorem lowerCase_notMem_registers {name : String} (h : name ∈ Mnemonic.names) :
    String.ofList (name.toList.map Char.toLower) ∉ Register.names := by
  intro hmem
  obtain ⟨hne, hcapitals⟩ := keyword_capitals h
  obtain ⟨c, hc⟩ := List.exists_mem_of_ne_nil _ hne
  have hlower := (Text.upperCase_toLower (hcapitals c hc)).2
  have hcapital := (register_capitals hmem).2 c.toLower (by simpa using ⟨c, hc, rfl⟩)
  have hle := (Text.isCapital_iff.mp hcapital).2
  omega

/-- Each keyword in lower case is read as the keyword. -/
theorem wordToken_lowerCase {i : Nat} {name : String} (h : Mnemonic.names[i]? = some name) :
    IsWord (name.toList.map Char.toLower) ∧
      wordToken (name.toList.map Char.toLower) = entryToken .mnemonic ⟨name.toList, i⟩ := by
  have hmem := List.mem_of_getElem? h
  obtain ⟨hne, hcapitals⟩ := keyword_capitals hmem
  have hupper : ∀ c ∈ name.toList, Text.upperCase c.toLower = Text.upperCase c := by
    intro c hc
    rw [(Text.upperCase_toLower (hcapitals c hc)).1, Text.upperCase_capital (hcapitals c hc)]
  have hsame : SameLetters (name.toList.map Char.toLower) name.toList := by
    rw [sameLetters_iff, List.map_map]
    exact List.map_congr_left hupper
  refine ⟨isWord_of_upperCase (by simpa using hne) ?_,
    wordToken_of_keyword (registerEntry_eq_none (lowerCase_notMem_registers hmem))
      (keywordEntry_eq_some h hsame)⟩
  intro c hc
  obtain ⟨d, hd, rfl⟩ := List.mem_map.mp hc
  rw [(Text.upperCase_toLower (hcapitals d hd)).1]
  exact hcapitals d hd

end RegAsm
