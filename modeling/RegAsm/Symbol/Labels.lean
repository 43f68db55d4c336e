/-
RegAsm.Symbol.Labels — labels by address.
-/
import RegAsm.Symbol.Table

namespace RegAsm

/-- The names at each address, in ascending order of addresses. -/
structure Labels where
  groups : List (UInt32 × List String)
  deriving DecidableEq, Repr, Inhabited

namespace Labels

/-- Puts a name in front of the others at its address. -/
def insert (s : Symbol) : List (UInt32 × List String) → List (UInt32 × List String)
  | [] => [(s.address, [s.name])]
  | (address, names) :: rest =>
    if s.address < address then (s.address, [s.name]) :: (address, names) :: rest
    else if s.address = address then (address, s.name :: names) :: rest
    else (address, names) :: insert s rest

/-- Symbols grouped by address.  Names at one address stay in order. -/
def ofSymbols (symbols : List Symbol) : Labels := ⟨symbols.foldr insert []⟩

/-- The names at an address. -/
def names (l : Labels) (address : UInt32) : List String := (l.groups.lookup address).getD []

/-- The first name between two addresses, both excluded, and the address it
is at. -/
def firstBetween? (l : Labels) (low high : Nat) : Option String :=
  l.groups.findSome? fun (address, names) =>
    if low < address.toNat ∧ address.toNat < high then names.head? else none

/-- The addresses with a name between two addresses, both excluded. -/
def between (l : Labels) (low high : Nat) : List Nat :=
  (l.groups.filter fun (address, names) =>
    low < address.toNat ∧ address.toNat < high ∧ names ≠ []).map (·.1.toNat)

/-- The name to print for an address: the first global one, or else the
first. -/
def best? (l : Labels) (address : UInt32) : Option String :=
  let names := l.names address
  match names.find? fun n => n.toList.head? ≠ some '.' with
  | some n => some n
  | none => names.head?

end Labels

end RegAsm
