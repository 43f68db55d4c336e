/-
RegAsm.Proofs.Resolution — what a name stands for.

Two rules are given.  The *deferred* rule follows a run: a name stands for what
is visible where it is mentioned; if nothing is, it waits for the next global
label or the end of the program and stands for what is visible there, except
that a local name waits for one region only.  The *region* rule looks at the
program as a whole: a global name stands for the label of that name, and a
local name for the last label of that name in front of it in its region, or
else the last one behind it.

The deferred rule is right for every program.  On programs whose local labels
are the ones with a leading dot the two rules agree
(`deferredRule_eq_regionRule`).

1. Labels with a name.
2. The deferred rule and the table of names it reads.
3. The region rule.
-/
import Mathlib
import RegAsm.Proofs.Placement

namespace RegAsm

open Machine

/-! ## 1. Labels with a name -/

/-- The address of the last label with a name. -/
def lastNamed? (name : String) (ds : List Declaration) : Option Nat :=
  (ds.reverse.find? (·.name == name)).map (·.address)

/-- The address of the first global label with a name. -/
def globalNamed? (name : String) (ds : List Declaration) : Option Nat :=
  (ds.find? fun d => d.isGlobal && d.name == name).map (·.address)

/-- The labels behind the last global one. -/
def openRegion (before : List Declaration) : List Declaration :=
  before.rtakeWhile (!·.isGlobal)

/-- The labels in front of the first global one. -/
def restOfRegion (after : List Declaration) : List Declaration :=
  after.takeWhile (!·.isGlobal)

theorem lastNamed?_append (name : String) (xs ys : List Declaration) :
    lastNamed? name (xs ++ ys) = (lastNamed? name ys).or (lastNamed? name xs) := by
  rw [lastNamed?, List.reverse_append, List.find?_append]
  cases h : ys.reverse.find? (·.name == name) <;> simp [lastNamed?, h]

theorem globalNamed?_append (name : String) (xs ys : List Declaration) :
    globalNamed? name (xs ++ ys) = (globalNamed? name xs).or (globalNamed? name ys) := by
  rw [globalNamed?, List.find?_append]
  cases h : xs.find? (fun d => d.isGlobal && d.name == name) <;> simp [globalNamed?, h]

@[simp]
theorem openRegion_nil : openRegion [] = [] := rfl

theorem openRegion_concat (before : List Declaration) (d : Declaration) :
    openRegion (before ++ [d]) = if d.isGlobal then [] else openRegion before ++ [d] := by
  rw [openRegion, List.rtakeWhile_concat]
  cases d.isGlobal <;> simp [openRegion]

theorem mem_of_mem_openRegion {before : List Declaration} {d : Declaration}
    (h : d ∈ openRegion before) : d ∈ before ∧ d.isGlobal = false :=
  ⟨(List.rtakeWhile_suffix _ before).subset h, by simpa using List.mem_rtakeWhile_imp h⟩

/-! ## 2. The deferred rule -/

/-- What is visible behind some labels: the last label of the open region with
the name, or else the global label. -/
def visible? (before : List Declaration) (name : String) : Option Nat :=
  (lastNamed? name (openRegion before)).or (globalNamed? name before)

/-- What a name comes to stand for that waits behind some labels while others
follow. -/
def settled? (name : String) (before : List Declaration) : List Declaration → Option Nat
  | [] => visible? before name
  | d :: after =>
    if d.isGlobal then
      (visible? before name).or
        (if isLocalName name then none else settled? name (before ++ [d]) after)
    else settled? name (before ++ [d]) after

/-- A name stands for what is visible, or else for what turns up. -/
def deferredRule : NameRule := fun before after name =>
  (visible? before name).or (settled? name before after)

/-- The scope that a local label opens. -/
def Declaration.scope (d : Declaration) : Scope := ⟨d.name, #[d.symbol]⟩

/-- The table of names behind some labels. -/
def tableOf (before : List Declaration) : SymbolTable where
  global := ⟨"global", ((before.filter (·.isGlobal)).map Declaration.symbol).toArray⟩
  locals := (openRegion before).reverse.map Declaration.scope

theorem Declaration.find?_scope (d : Declaration) (name : String) :
    d.scope.find? name = if d.name == name then some (UInt32.ofNat d.address) else none := by
  simp only [scope, Scope.find?, symbol, List.find?_toArray, List.find?_cons, List.find?_nil]
  cases d.name == name <;> rfl

theorem findSome?_scopes (name : String) (ds : List Declaration) :
    (ds.map Declaration.scope).findSome? (·.find? name) =
      ((ds.find? (·.name == name)).map (·.address)).map UInt32.ofNat := by
  induction ds with
  | nil => rfl
  | cons d rest ih =>
    rw [List.map_cons, List.findSome?_cons, d.find?_scope, ih, List.find?_cons]
    cases d.name == name <;> rfl

theorem find?_globalScope (name : String) (before : List Declaration) :
    (tableOf before).global.find? name = (globalNamed? name before).map UInt32.ofNat := by
  have htest : (fun d : Declaration => decide (d.isGlobal = true ∧
      ((fun s : Symbol => s.name == name) ∘ Declaration.symbol) d = true)) =
      fun d => d.isGlobal && d.name == name := by
    funext d
    simp [Declaration.symbol, ← Bool.beq_eq_decide_eq]
  simp only [tableOf, Scope.find?, List.find?_toArray, List.find?_map, List.find?_filter, htest,
    globalNamed?, Option.map_map]
  rfl

/-- Looking a name up in the table finds what is visible. -/
theorem find?_tableOf (before : List Declaration) (name : String) :
    (tableOf before).find? name = (visible? before name).map UInt32.ofNat := by
  rw [SymbolTable.find?, List.findSome?_append, List.findSome?_singleton, find?_globalScope,
    tableOf, findSome?_scopes, visible?, ← lastNamed?]
  cases lastNamed? name (openRegion before) <;> simp

/-- A global label can be declared if no other has its name. -/
theorem declare_global (before : List Declaration) (name : String) (address : Nat) :
    (tableOf before).toGlobal.declare name (UInt32.ofNat address) =
      match globalNamed? name before with
      | some a => .error (.duplicate name "global" (UInt32.ofNat a))
      | none => .ok (tableOf (before ++ [⟨true, name, address⟩])) := by
  have hfind : (tableOf before).toGlobal.current.find? name =
      (globalNamed? name before).map UInt32.ofNat := find?_globalScope name before
  rw [SymbolTable.declare, hfind]
  cases globalNamed? name before with
  | some a => rfl
  | none =>
    simp [SymbolTable.toGlobal, SymbolTable.add, tableOf, openRegion_concat, Declaration.symbol]

/-- A local label can always be declared. -/
theorem declare_local (before : List Declaration) (name : String) (address : Nat) :
    ((tableOf before).pushNamed name).declare name (UInt32.ofNat address) =
      .ok (tableOf (before ++ [⟨false, name, address⟩])) := by
  have hfind : ((tableOf before).pushNamed name).current.find? name = none := rfl
  rw [SymbolTable.declare, hfind]
  simp [SymbolTable.pushNamed, SymbolTable.add, tableOf, openRegion_concat, Declaration.scope,
    Declaration.symbol]

/-! ## 3. The region rule -/

/-- A global name stands for the label of that name, wherever it is.  A local
name stands for the last label of that name in front of it in its region, or
else for the last one behind it. -/
def regionRule : NameRule := fun before after name =>
  if isLocalName name then
    (lastNamed? name (openRegion before)).or (lastNamed? name (restOfRegion after))
  else globalNamed? name (before ++ after)

/-- The local labels are the ones with a leading dot. -/
def WellNamed (ds : List Declaration) : Prop := ∀ d ∈ ds, isLocalName d.name = !d.isGlobal

theorem WellNamed.left {xs ys : List Declaration} (h : WellNamed (xs ++ ys)) : WellNamed xs :=
  fun d hd => h d (List.mem_append_left ys hd)

/-- No global label has a local name. -/
theorem globalNamed?_local {before : List Declaration} {name : String} (hb : WellNamed before)
    (hn : isLocalName name = true) : globalNamed? name before = none := by
  have hnone : before.find? (fun d => d.isGlobal && d.name == name) = none := by
    rw [List.find?_eq_none]
    intro d hd h
    rw [Bool.and_eq_true, beq_iff_eq] at h
    obtain ⟨hg, rfl⟩ := h
    rw [hb d hd, hg] at hn
    cases hn
  rw [globalNamed?, hnone, Option.map_none]

/-- No local label has a global name. -/
theorem lastNamed?_global {before : List Declaration} {name : String} (hb : WellNamed before)
    (hn : isLocalName name = false) : lastNamed? name (openRegion before) = none := by
  have hnone : (openRegion before).reverse.find? (·.name == name) = none := by
    rw [List.find?_eq_none]
    intro d hd h
    obtain ⟨hmem, hl⟩ := mem_of_mem_openRegion (List.mem_reverse.mp hd)
    rw [beq_iff_eq] at h
    subst h
    rw [hb d hmem, hl] at hn
    cases hn
  rw [lastNamed?, hnone, Option.map_none]

/-- A local name that waits gets the last label of its region. -/
theorem settled?_local {name : String} (hn : isLocalName name = true) {before : List Declaration}
    (after : List Declaration) (h : WellNamed (before ++ after)) :
    settled? name before after =
      (lastNamed? name (restOfRegion after)).or (lastNamed? name (openRegion before)) := by
  induction after generalizing before with
  | nil => simp [settled?, visible?, globalNamed?_local h.left hn, restOfRegion, lastNamed?]
  | cons d rest ih =>
    have hsplit : before ++ d :: rest = before ++ [d] ++ rest := by simp
    cases hd : d.isGlobal with
    | true =>
      simp [settled?, hd, visible?, globalNamed?_local h.left hn, hn, restOfRegion, lastNamed?]
    | false =>
      have hrest : restOfRegion (d :: rest) = [d] ++ restOfRegion rest := by
        simp [restOfRegion, hd]
      have hopen : openRegion (before ++ [d]) = openRegion before ++ [d] := by
        simp [openRegion_concat, hd]
      rw [settled?, hd, if_neg Bool.false_ne_true, ih (hsplit ▸ h), hopen, hrest,
        lastNamed?_append, lastNamed?_append, Option.or_assoc]

/-- A global name that waits gets the label of that name. -/
theorem settled?_global {name : String} (hn : isLocalName name = false) {before : List Declaration}
    (after : List Declaration) (h : WellNamed (before ++ after)) :
    settled? name before after = globalNamed? name (before ++ after) := by
  induction after generalizing before with
  | nil => simp [settled?, visible?, lastNamed?_global h.left hn]
  | cons d rest ih =>
    have hsplit : before ++ d :: rest = before ++ [d] ++ rest := by simp
    have hrest := ih (hsplit ▸ h)
    cases hd : d.isGlobal with
    | true =>
      rw [settled?, hd, if_pos rfl, hrest, visible?, lastNamed?_global h.left hn, hn,
        if_neg Bool.false_ne_true, hsplit, List.append_assoc, globalNamed?_append]
      cases globalNamed? name before <;> simp
    | false =>
      rw [settled?, hd, if_neg Bool.false_ne_true, hrest, hsplit]

/-- The two rules agree if the local labels are the ones with a leading dot. -/
theorem deferredRule_eq_regionRule {before after : List Declaration}
    (h : WellNamed (before ++ after)) (name : String) :
    deferredRule before after name = regionRule before after name := by
  cases hn : isLocalName name with
  | true =>
    rw [deferredRule, settled?_local hn after h, regionRule, hn, if_pos rfl, visible?,
      globalNamed?_local h.left hn]
    cases lastNamed? name (openRegion before) <;> simp
  | false =>
    rw [deferredRule, settled?_global hn after h, regionRule, hn, if_neg Bool.false_ne_true,
      visible?, lastNamed?_global h.left hn, globalNamed?_append]
    cases globalNamed? name before <;> simp

theorem mem_of_lastNamed? {name : String} {ds : List Declaration} {n : Nat}
    (h : lastNamed? name ds = some n) : ∃ d ∈ ds, d.name = name ∧ d.address = n := by
  obtain ⟨d, hd, rfl⟩ := Option.map_eq_some_iff.mp h
  exact ⟨d, List.mem_reverse.mp (List.mem_of_find?_eq_some hd),
    by simpa using List.find?_some hd, rfl⟩

theorem mem_of_globalNamed? {name : String} {ds : List Declaration} {n : Nat}
    (h : globalNamed? name ds = some n) : ∃ d ∈ ds, d.name = name ∧ d.address = n := by
  obtain ⟨d, hd, rfl⟩ := Option.map_eq_some_iff.mp h
  have hname := List.find?_some hd
  rw [Bool.and_eq_true, beq_iff_eq] at hname
  exact ⟨d, List.mem_of_find?_eq_some hd, hname.2, rfl⟩

/-- A name stands for the address of a label of that name. -/
theorem mem_of_regionRule {before after : List Declaration} {name : String} {n : Nat}
    (h : regionRule before after name = some n) :
    ∃ d ∈ before ++ after, d.name = name ∧ d.address = n := by
  rw [regionRule] at h
  split at h
  · rcases Option.or_eq_some_iff.mp h with h | ⟨-, h⟩
    · obtain ⟨d, hd, hspec⟩ := mem_of_lastNamed? h
      exact ⟨d, List.mem_append_left _ (mem_of_mem_openRegion hd).1, hspec⟩
    · obtain ⟨d, hd, hspec⟩ := mem_of_lastNamed? h
      exact ⟨d, List.mem_append_right _ ((List.takeWhile_subset _) hd), hspec⟩
  · exact mem_of_globalNamed? h

/-- A global name stands for the only label of that name, wherever it is
mentioned. -/
theorem regionRule_of_unique {before after : List Declaration} {d : Declaration}
    (hd : d ∈ before ++ after) (hglobal : d.isGlobal = true) (hname : isLocalName d.name = false)
    (hunique : ∀ d' ∈ before ++ after, d'.isGlobal = true → d'.name = d.name → d' = d) :
    regionRule before after d.name = some d.address := by
  rw [regionRule, if_neg (by simp [hname]), globalNamed?]
  cases hfind : (before ++ after).find? fun d' => d'.isGlobal && d'.name == d.name with
  | none =>
    have hnot := List.find?_eq_none.mp hfind d hd
    simp [hglobal] at hnot
  | some d' =>
    have hspec := List.find?_some hfind
    rw [Bool.and_eq_true, beq_iff_eq] at hspec
    rw [hunique d' (List.mem_of_find?_eq_some hfind) hspec.1 hspec.2]
    rfl

end RegAsm
