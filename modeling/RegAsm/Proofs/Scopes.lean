/-
RegAsm.Proofs.Scopes — what a table of names holds after any operations.

A table is a stack of scopes, each a list of symbols that only grows, with the
global scope at the bottom.  What each operation can do to the stack is said once
(`TableOp.Moves`, `moves_perform`).  From this it follows, for every sequence of
operations, that the table is what nested maps from names to addresses are after
the same operations, that no scope holds a name twice, and that what happens
between the opening and the closing of a scope leaves the scopes below it alone.

1. Operations.
2. One scope.
3. What an operation does to the scopes.
4. Nested maps.
5. The global symbols.
6. Opening and closing.
7. Any operations from the start.
-/
import Mathlib
import RegAsm.Symbol.Table

namespace RegAsm

/-! ## 1. Operations -/

/-- An operation on a table of names. -/
inductive TableOp where
  | declare (name : String) (address : UInt32)
  | lookUp (name : String)
  | contains (name : String)
  | push
  | pushNamed (name : String)
  | pop
  | toGlobal
  deriving DecidableEq, Repr

/-- Whether an operation opens a scope. -/
def TableOp.opens : TableOp → Bool
  | .push => true
  | .pushNamed _ => true
  | _ => false

/-- What an operation answers. -/
inductive TableAnswer where
  | done
  | address (a : UInt32)
  | visible (b : Bool)
  | failed (e : SymbolError)
  deriving DecidableEq, Repr

namespace SymbolTable

/-- Performs an operation.  One that fails leaves the table as it is. -/
def perform (t : SymbolTable) : TableOp → TableAnswer × SymbolTable
  | .declare name address =>
    match t.declare name address with
    | .ok t' => (.done, t')
    | .error e => (.failed e, t)
  | .lookUp name =>
    match t.lookUp name with
    | .ok a => (.address a, t)
    | .error e => (.failed e, t)
  | .contains name => (.visible (t.contains name), t)
  | .push => (.done, t.push)
  | .pushNamed name => (.done, t.pushNamed name)
  | .pop => (.done, t.pop)
  | .toGlobal => (.done, t.toGlobal)

/-- The table after some operations. -/
def after (t : SymbolTable) : List TableOp → SymbolTable
  | [] => t
  | op :: ops => (t.perform op).2.after ops

/-- The scopes, the innermost first. -/
def scopes (t : SymbolTable) : List Scope := t.locals ++ [t.global]

end SymbolTable

/-! ## 2. One scope -/

namespace Scope

/-- The names of a scope in order of declaration. -/
def names (s : Scope) : List String := s.symbols.toList.map (·.name)

/-- The scope with one more symbol. -/
def add (s : Scope) (symbol : Symbol) : Scope := { s with symbols := s.symbols.push symbol }

theorem names_add (s : Scope) (symbol : Symbol) :
    (s.add symbol).names = s.names ++ [symbol.name] := by
  simp [names, add]

theorem find?_eq_none_iff (s : Scope) (name : String) : s.find? name = none ↔ name ∉ s.names := by
  simp [find?, names]

/-- In a scope that holds no name twice, a name is found with the address it was
declared with. -/
theorem find?_eq_some_iff {s : Scope} (h : s.names.Nodup) (name : String) (a : UInt32) :
    s.find? name = some a ↔ ⟨name, a⟩ ∈ s.symbols.toList := by
  have hfind : s.find? name = (s.symbols.toList.find? (·.name == name)).map (·.address) := by
    simp [find?]
  rw [hfind]
  unfold names at h
  generalize s.symbols.toList = symbols at h
  induction symbols with
  | nil => simp
  | cons symbol symbols ih =>
    obtain ⟨first, b⟩ := symbol
    rw [List.map_cons, List.nodup_cons] at h
    rw [List.find?_cons, List.mem_cons, Symbol.mk.injEq]
    by_cases hname : first = name
    · have hother : ⟨name, a⟩ ∉ symbols := fun hmem =>
        h.1 (List.mem_map.mpr ⟨⟨name, a⟩, hmem, hname.symm⟩)
      simp [hname, hother, eq_comm]
    · have hne : (first == name) = false := by simpa using hname
      simp only [hne, ih h.2, Ne.symm hname, false_and, false_or]

/-- One more symbol changes what is found for its name only. -/
theorem find?_add {s : Scope} {name : String} (h : s.find? name = none) (a : UInt32) :
    (s.add ⟨name, a⟩).find? = Function.update s.find? name (some a) := by
  funext other
  have hnone : s.symbols.find? (·.name == name) = none := by simpa [find?] using h
  by_cases hother : other = name
  · subst hother
    simp [find?, add, Array.find?_push, hnone]
  · have hne : (name == other) = false := by simpa using Ne.symm hother
    simp [find?, add, Array.find?_push, hne, Function.update_of_ne hother]

end Scope

/-! ## 3. What an operation does to the scopes -/

/-- What an operation does to the scopes of a table, the innermost first. -/
inductive TableOp.Moves : TableOp → List Scope → List Scope → Prop where
  | lookUp {name : String} {ss : List Scope} : Moves (.lookUp name) ss ss
  | contains {name : String} {ss : List Scope} : Moves (.contains name) ss ss
  | push {name : String} {ss : List Scope} : Moves .push ss ({ name } :: ss)
  | pushNamed {name : String} {ss : List Scope} : Moves (.pushNamed name) ss ({ name } :: ss)
  | declare {name : String} {address : UInt32} {s : Scope} {outer : List Scope}
    (h : s.find? name = none) :
    Moves (.declare name address) (s :: outer) (s.add ⟨name, address⟩ :: outer)
  | refuse {name : String} {address a : UInt32} {s : Scope} {outer : List Scope}
    (h : s.find? name = some a) : Moves (.declare name address) (s :: outer) (s :: outer)
  | pop {s s' : Scope} {outer : List Scope} : Moves .pop (s :: s' :: outer) (s' :: outer)
  | popGlobal {s : Scope} : Moves .pop [s] [s]
  | toGlobal {inner : List Scope} {s : Scope} : Moves .toGlobal (inner ++ [s]) [s]

namespace SymbolTable

theorem depth_eq (t : SymbolTable) : t.depth = t.scopes.length := by
  simp [depth, scopes]

theorem isGlobal_iff (t : SymbolTable) : t.isGlobal = true ↔ t.depth = 1 := by
  simp [isGlobal, depth]

theorem scopes_ne_nil (t : SymbolTable) : t.scopes ≠ [] := by
  simp [scopes]

/-- The innermost scope is the first one, and a symbol is added there. -/
theorem scopes_eq_cons (t : SymbolTable) :
    ∃ outer, t.scopes = t.current :: outer ∧
      ∀ symbol, (t.add symbol).scopes = t.current.add symbol :: outer := by
  obtain ⟨global, locals, unnamed⟩ := t
  cases locals with
  | nil => exact ⟨[], rfl, fun symbol => rfl⟩
  | cons scope outer => exact ⟨outer ++ [global], rfl, fun symbol => rfl⟩

/-- A declaration of a new name. -/
theorem perform_declare_of_none {t : SymbolTable} {name : String} (address : UInt32)
    (h : t.current.find? name = none) :
    t.perform (.declare name address) = (.done, t.add ⟨name, address⟩) := by
  simp only [perform, declare, h]

/-- A declaration of a name that the innermost scope has. -/
theorem perform_declare_of_some {t : SymbolTable} {name : String} {a : UInt32} (address : UInt32)
    (h : t.current.find? name = some a) :
    t.perform (.declare name address) = (.failed (.duplicate name t.current.name a), t) := by
  simp only [perform, declare, h]

/-- A look-up answers with what the innermost scope that has the name says. -/
theorem perform_lookUp (t : SymbolTable) (name : String) :
    t.perform (.lookUp name) =
      ((t.scopes.findSome? (·.find? name)).elim (.failed (.notFound name)) .address, t) := by
  have hfind : t.find? name = t.scopes.findSome? (·.find? name) := rfl
  simp only [perform, lookUp, hfind]
  cases t.scopes.findSome? (·.find? name) <;> rfl

theorem moves_perform (t : SymbolTable) (op : TableOp) :
    op.Moves t.scopes (t.perform op).2.scopes := by
  cases op with
  | declare name address =>
    obtain ⟨outer, hscopes, hadd⟩ := t.scopes_eq_cons
    cases hfind : t.current.find? name with
    | none =>
      rw [perform_declare_of_none address hfind, hscopes, hadd]
      exact .declare hfind
    | some a =>
      rw [perform_declare_of_some address hfind, hscopes]
      exact .refuse hfind
  | lookUp name =>
    rw [perform_lookUp]
    exact .lookUp
  | contains name => exact .contains
  | push => exact .push
  | pushNamed name => exact .pushNamed
  | pop =>
    obtain ⟨global, locals, unnamed⟩ := t
    cases locals with
    | nil => exact .popGlobal
    | cons s outer =>
      cases outer with
      | nil => exact .pop
      | cons s' outer => exact .pop
  | toGlobal => exact .toGlobal

/-- What every operation keeps holds after any operations. -/
theorem after_induction {P : SymbolTable → Prop} (hstep : ∀ t op, P t → P (t.perform op).2)
    {t : SymbolTable} (h : P t) (ops : List TableOp) : P (t.after ops) := by
  induction ops generalizing t with
  | nil => exact h
  | cons op ops ih => exact ih (hstep t op h)

theorem after_append (t : SymbolTable) (ops ops' : List TableOp) :
    t.after (ops ++ ops') = (t.after ops).after ops' := by
  induction ops generalizing t with
  | nil => rfl
  | cons op ops ih => exact ih _

end SymbolTable

/-- No operation makes a scope hold a name twice. -/
theorem TableOp.Moves.nodup {op : TableOp} {ss ss' : List Scope} (h : op.Moves ss ss')
    (hss : ∀ s ∈ ss, s.names.Nodup) : ∀ s ∈ ss', s.names.Nodup := by
  cases h with
  | lookUp => exact hss
  | contains => exact hss
  | push => exact List.forall_mem_cons.mpr ⟨List.nodup_nil, hss⟩
  | pushNamed => exact List.forall_mem_cons.mpr ⟨List.nodup_nil, hss⟩
  | @declare name address s outer hnew =>
    obtain ⟨hs, houter⟩ := List.forall_mem_cons.mp hss
    refine List.forall_mem_cons.mpr ⟨?_, houter⟩
    rw [Scope.names_add, ← List.concat_eq_append]
    exact hs.concat ((s.find?_eq_none_iff name).mp hnew)
  | refuse => exact hss
  | pop => exact fun s hs => hss s (List.mem_cons_of_mem _ hs)
  | popGlobal => exact hss
  | toGlobal => exact fun s hs => hss s (List.mem_append_right _ hs)

theorem SymbolTable.nodup_after (ops : List TableOp) :
    ∀ s ∈ (empty.after ops).scopes, s.names.Nodup := by
  have hstart : ∀ s ∈ empty.scopes, s.names.Nodup := by
    simp [scopes, empty, Scope.names]
  exact after_induction (fun t op h => (t.moves_perform op).nodup h) hstart ops

/-! ## 4. Nested maps -/

/-- A scope as a map from names to addresses. -/
abbrev NameMap := String → Option UInt32

/-- What an operation does to nested maps, the innermost first. -/
def TableOp.onMaps : TableOp → List NameMap → List NameMap
  | .declare name address, m :: outer =>
    (if m name = none then Function.update m name (some address) else m) :: outer
  | .push, ms => (fun _ => none) :: ms
  | .pushNamed _, ms => (fun _ => none) :: ms
  | .pop, _ :: m :: outer => m :: outer
  | .toGlobal, ms => ms.getLast?.toList
  | _, ms => ms

theorem TableOp.Moves.maps {op : TableOp} {ss ss' : List Scope} (h : op.Moves ss ss') :
    ss'.map Scope.find? = op.onMaps (ss.map Scope.find?) := by
  cases h with
  | lookUp => rfl
  | contains => rfl
  | push => rfl
  | pushNamed => rfl
  | declare hnew => simp [onMaps, hnew, Scope.find?_add hnew]
  | refuse hold => simp [onMaps, hold]
  | pop => rfl
  | popGlobal => rfl
  | toGlobal => simp [onMaps]

namespace SymbolTable

/-- The scopes as nested maps, the innermost first. -/
def maps (t : SymbolTable) : List NameMap := t.scopes.map Scope.find?

theorem maps_after (t : SymbolTable) (ops : List TableOp) :
    (t.after ops).maps = ops.foldl (fun ms op => op.onMaps ms) t.maps := by
  induction ops generalizing t with
  | nil => rfl
  | cons op ops ih =>
    have hop : (t.perform op).2.maps = op.onMaps t.maps := (t.moves_perform op).maps
    rw [after, ih, List.foldl_cons, hop]

theorem lookUp_eq_address_iff {t : SymbolTable} (h : ∀ s ∈ t.scopes, s.names.Nodup)
    (name : String) (a : UInt32) :
    (t.perform (.lookUp name)).1 = .address a ↔
      ∃ inner s outer, t.scopes = inner ++ s :: outer ∧ (∀ s' ∈ inner, name ∉ s'.names) ∧
        ⟨name, a⟩ ∈ s.symbols.toList := by
  have hanswer : (t.perform (.lookUp name)).1 = .address a ↔
      t.scopes.findSome? (·.find? name) = some a := by
    rw [perform_lookUp]
    cases t.scopes.findSome? (·.find? name) <;> simp
  rw [hanswer, List.findSome?_eq_some_iff]
  constructor
  · rintro ⟨inner, s, outer, hscopes, hfound, hinner⟩
    have hs : s ∈ t.scopes := by simp [hscopes]
    exact ⟨inner, s, outer, hscopes, fun s' hs' => (s'.find?_eq_none_iff name).mp (hinner s' hs'),
      (Scope.find?_eq_some_iff (h s hs) name a).mp hfound⟩
  · rintro ⟨inner, s, outer, hscopes, hinner, hfound⟩
    have hs : s ∈ t.scopes := by simp [hscopes]
    exact ⟨inner, s, outer, hscopes, (Scope.find?_eq_some_iff (h s hs) name a).mpr hfound,
      fun s' hs' => (s'.find?_eq_none_iff name).mpr (hinner s' hs')⟩

theorem lookUp_fails_iff (t : SymbolTable) (name : String) :
    (∃ e, (t.perform (.lookUp name)).1 = .failed e) ↔ ∀ s ∈ t.scopes, name ∉ s.names := by
  have hnone : t.scopes.findSome? (·.find? name) = none ↔ ∀ s ∈ t.scopes, name ∉ s.names := by
    simp [List.findSome?_eq_none_iff, Scope.find?_eq_none_iff]
  rw [← hnone, perform_lookUp]
  cases t.scopes.findSome? (·.find? name) <;> simp

theorem contains_iff (t : SymbolTable) (name : String) :
    (t.perform (.contains name)).1 = .visible true ↔ ∃ s ∈ t.scopes, name ∈ s.names := by
  have hfind : ∀ s : Scope, (s.find? name).isSome = true ↔ name ∈ s.names := fun s => by
    rw [← Option.ne_none_iff_isSome, ne_eq, s.find?_eq_none_iff, not_not]
  simp only [perform, TableAnswer.visible.injEq, contains, find?, List.findSome?_isSome_iff, hfind,
    scopes]

theorem declare_fails_iff (t : SymbolTable) (name : String) (address : UInt32) :
    (∃ e, (t.perform (.declare name address)).1 = .failed e) ↔ name ∈ t.current.names := by
  have hnone := t.current.find?_eq_none_iff name
  cases h : t.current.find? name with
  | none =>
    rw [perform_declare_of_none address h]
    simpa using hnone.mp h
  | some a =>
    have hmem : name ∈ t.current.names := not_not.mp fun hnot => by simp [hnone.mpr hnot] at h
    rw [perform_declare_of_some address h]
    simpa using hmem

/-- An operation that fails leaves the table as it is. -/
theorem perform_of_failed {t : SymbolTable} {op : TableOp} {e : SymbolError}
    (h : (t.perform op).1 = .failed e) : (t.perform op).2 = t := by
  cases op with
  | declare name address =>
    cases hfind : t.current.find? name with
    | none =>
      rw [perform_declare_of_none address hfind] at h
      cases h
    | some a => rw [perform_declare_of_some address hfind]
  | lookUp name => rw [perform_lookUp]
  | contains name => rfl
  | push => cases h
  | pushNamed name => cases h
  | pop => cases h
  | toGlobal => cases h

end SymbolTable

/-! ## 5. The global symbols -/

namespace SymbolTable

/-- The symbol that an operation declares while no local scope is open. -/
def declaredGlobally (t : SymbolTable) (op : TableOp) : List Symbol :=
  match op, (t.perform op).1 with
  | .declare name address, .done => if t.depth = 1 then [⟨name, address⟩] else []
  | _, _ => []

/-- The symbols that some operations declare while no local scope is open, in
order. -/
def globalDeclarations (t : SymbolTable) : List TableOp → List Symbol
  | [] => []
  | op :: ops => t.declaredGlobally op ++ (t.perform op).2.globalDeclarations ops

theorem globals_perform (t : SymbolTable) (op : TableOp) :
    (t.perform op).2.globals = t.globals ++ t.declaredGlobally op := by
  cases op with
  | declare name address =>
    unfold declaredGlobally
    cases hfind : t.current.find? name with
    | some a => simp [perform_declare_of_some address hfind]
    | none =>
      rw [perform_declare_of_none address hfind]
      obtain ⟨global, locals, unnamed⟩ := t
      cases locals <;> simp [add, globals, depth]
  | lookUp name => simp [declaredGlobally, perform_lookUp]
  | _ => exact (List.append_nil _).symm

theorem globals_after (t : SymbolTable) (ops : List TableOp) :
    (t.after ops).globals = t.globals ++ t.globalDeclarations ops := by
  induction ops generalizing t with
  | nil => exact (List.append_nil _).symm
  | cons op ops ih => rw [after, ih, globals_perform, globalDeclarations, List.append_assoc]

end SymbolTable

/-! ## 6. Opening and closing -/

/-- Scopes that lie below the innermost one before and after an operation stay as
they are. -/
theorem TableOp.Moves.keeps {op : TableOp} {ss ss' base : List Scope} (h : op.Moves ss ss')
    (hbase : base ≠ []) (hss : base <:+ ss) (hlt : base.length < ss.length)
    (hlt' : base.length < ss'.length) : base <:+ ss' := by
  have hbelow : ∀ {s : Scope} {outer : List Scope}, base <:+ s :: outer →
      base.length < (s :: outer).length → base <:+ outer := by
    intro s outer hsuffix hshort
    rcases List.suffix_cons_iff.mp hsuffix with rfl | houter
    · exact absurd hshort (Nat.lt_irrefl _)
    · exact houter
  cases h with
  | lookUp => exact hss
  | contains => exact hss
  | push => exact hss.trans (List.suffix_cons _ _)
  | pushNamed => exact hss.trans (List.suffix_cons _ _)
  | declare hnew => exact (hbelow hss hlt).trans (List.suffix_cons _ _)
  | refuse hold => exact hss
  | pop => exact hbelow hss hlt
  | popGlobal => exact hss
  | toGlobal =>
    have hpos := List.length_pos_iff.mpr hbase
    rw [List.length_singleton] at hlt'
    omega

theorem TableOp.Moves.opened {op : TableOp} {ss ss' : List Scope} (h : op.Moves ss ss')
    (hop : op.opens = true) : ∃ s, ss' = s :: ss := by
  cases h with
  | push => exact ⟨_, rfl⟩
  | pushNamed => exact ⟨_, rfl⟩
  | _ => cases hop

theorem TableOp.Moves.popped {ss ss' base : List Scope} {s : Scope}
    (h : TableOp.pop.Moves ss ss') (hss : ss = s :: base) (hbase : base ≠ []) : ss' = base := by
  cases h with
  | pop => exact (List.cons.inj hss).2
  | popGlobal => exact absurd (List.cons.inj hss).2.symm hbase

namespace SymbolTable

/-- As long as more scopes are open than some lowest ones, these stay as they
are. -/
theorem keeps_after {base : List Scope} (hbase : base ≠ []) {t : SymbolTable} {ops : List TableOp}
    (hss : base <:+ t.scopes)
    (hdeep : ∀ front, front <+: ops → base.length < (t.after front).depth) :
    base <:+ (t.after ops).scopes := by
  induction ops generalizing t with
  | nil => exact hss
  | cons op ops ih =>
    have hnow := hdeep [] (List.nil_prefix)
    have hnext := hdeep [op] ⟨ops, rfl⟩
    rw [depth_eq] at hnow hnext
    refine ih ((t.moves_perform op).keeps hbase hss hnow hnext) fun front hfront => ?_
    exact hdeep (op :: front) (List.cons_prefix_cons.mpr ⟨rfl, hfront⟩)

/-- What happens between the opening and the closing of a scope leaves the scopes
below it alone. -/
theorem scopes_between {t : SymbolTable} {opening : TableOp} (hopening : opening.opens = true)
    {inner : List TableOp}
    (hdeep : ∀ front, front <+: inner → t.depth < ((t.perform opening).2.after front).depth) :
    t.scopes <:+ ((t.perform opening).2.after inner).scopes ∧
    (((t.perform opening).2.after inner).depth = t.depth + 1 →
      (((t.perform opening).2.after inner).perform .pop).2.scopes = t.scopes) := by
  obtain ⟨s, hs⟩ := (t.moves_perform opening).opened hopening
  simp only [depth_eq] at hdeep
  have hsuffix : t.scopes <:+ ((t.perform opening).2.after inner).scopes :=
    keeps_after t.scopes_ne_nil (hs ▸ List.suffix_cons s t.scopes)
      (fun front hfront => by rw [depth_eq]; exact hdeep front hfront)
  refine ⟨hsuffix, fun hdepth => ?_⟩
  obtain ⟨opened, hopened⟩ := hsuffix
  rw [depth_eq, depth_eq, ← hopened, List.length_append] at hdepth
  have hone : opened.length = 1 := by omega
  obtain ⟨top, rfl⟩ := List.length_eq_one_iff.mp hone
  exact (moves_perform _ .pop).popped hopened.symm t.scopes_ne_nil

/-! ## 7. Any operations from the start -/

/-- What a table holds after some operations from the start. -/
structure WellScoped (ops : List TableOp) (t : SymbolTable) : Prop where
  /-- Its scopes are what nested maps are after the operations. -/
  maps : t.maps = ops.foldl (fun ms op => op.onMaps ms) [fun _ => none]
  /-- At least one scope is open, and only one if no local scope is. -/
  depth : 1 ≤ t.depth ∧ t.depth = t.scopes.length ∧ (t.isGlobal = true ↔ t.depth = 1)
  /-- No scope holds a name twice. -/
  nodup : ∀ s ∈ t.scopes, s.names.Nodup
  /-- A declaration fails exactly if the innermost scope has the name, -/
  declare : ∀ name address,
    (∃ e, (t.perform (.declare name address)).1 = .failed e) ↔ name ∈ t.current.names
  /-- and what fails changes nothing. -/
  failed : ∀ op e, (t.perform op).1 = .failed e → (t.perform op).2 = t
  /-- A look-up gives the address in the innermost scope that has the name, -/
  lookUp : ∀ name a, (t.perform (.lookUp name)).1 = .address a ↔
    ∃ inner s outer, t.scopes = inner ++ s :: outer ∧ (∀ s' ∈ inner, name ∉ s'.names) ∧
      ⟨name, a⟩ ∈ s.symbols.toList
  /-- and fails exactly if none has it. -/
  missing : ∀ name,
    (∃ e, (t.perform (.lookUp name)).1 = .failed e) ↔ ∀ s ∈ t.scopes, name ∉ s.names
  contains : ∀ name,
    (t.perform (.contains name)).1 = .visible true ↔ ∃ s ∈ t.scopes, name ∈ s.names
  /-- The global symbols are those declared while no local scope was open. -/
  globals : t.globals = empty.globalDeclarations ops

end SymbolTable

/-- After any operations from the start a table is well scoped.  Whatever happens
between the opening of a scope and the operation that closes it, as long as it
stays open, leaves the scopes below it as they are, and then every name is again
looked up with the same result as before. -/
theorem SymbolTable.wellScoped_after (ops : List TableOp) :
    WellScoped ops (empty.after ops) ∧
    ∀ opening inner, opening.opens = true →
      (∀ front, front <+: inner → (empty.after ops).depth <
        (((empty.after ops).perform opening).2.after front).depth) →
      (empty.after ops).scopes <:+ (((empty.after ops).perform opening).2.after inner).scopes ∧
      ((((empty.after ops).perform opening).2.after inner).depth = (empty.after ops).depth + 1 →
        (empty.after (ops ++ opening :: inner ++ [.pop])).scopes = (empty.after ops).scopes ∧
        ∀ name, ((empty.after (ops ++ opening :: inner ++ [.pop])).perform (.lookUp name)).1 =
          ((empty.after ops).perform (.lookUp name)).1) := by
  refine ⟨⟨maps_after empty ops, ⟨Nat.le_add_left 1 _, depth_eq _, isGlobal_iff _⟩,
    nodup_after ops, declare_fails_iff _, fun op e => perform_of_failed,
    lookUp_eq_address_iff (nodup_after ops), lookUp_fails_iff _, contains_iff _,
    globals_after empty ops⟩, ?_⟩
  intro opening inner hopening hdeep
  obtain ⟨hbelow, hclosed⟩ := scopes_between hopening hdeep
  refine ⟨hbelow, fun hdepth => ?_⟩
  have hscopes : (empty.after (ops ++ opening :: inner ++ [.pop])).scopes =
      (empty.after ops).scopes := by
    rw [after_append, after_append]
    exact hclosed hdepth
  refine ⟨hscopes, fun name => ?_⟩
  rw [perform_lookUp, perform_lookUp, hscopes]

-- A name that is declared again in an opened scope, and what is left of it there.
example :
    ((SymbolTable.empty.after [.declare "a" 1, .push, .declare "a" 2]).perform (.lookUp "a")).1 =
      .address 2 ∧
    ((SymbolTable.empty.after [.declare "a" 1, .push, .declare "a" 2, .pop]).perform
      (.lookUp "a")).1 = .address 1 := by
  decide

end RegAsm
