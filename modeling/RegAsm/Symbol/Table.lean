/-
RegAsm.Symbol.Table — names and the scopes they are visible in.

The table is a stack of scopes over the global one, which is never removed.  A
name is declared in the innermost scope and looked up from there outwards; it
may shadow an outer name but not repeat within its scope.
-/
import RegAsm.Text.Quoted

namespace RegAsm

/-- A named address. -/
structure Symbol where
  name : String
  address : UInt32
  deriving DecidableEq, Repr, Inhabited

/-- A scope, with a name for messages and its symbols in order of
declaration. -/
structure Scope where
  name : String
  symbols : Array Symbol := #[]
  deriving DecidableEq, Repr, Inhabited

/-- The address of a name in a scope. -/
def Scope.find? (s : Scope) (name : String) : Option UInt32 :=
  (s.symbols.find? (·.name == name)).map (·.address)

/-- What can go wrong with a name. -/
inductive SymbolError where
  /-- The name already has an address in its scope. -/
  | duplicate (name scope : String) (address : UInt32)
  /-- No visible scope has the name. -/
  | notFound (name : String)
  deriving DecidableEq, Repr

/-- The wording of the error. -/
def SymbolError.message : SymbolError → String
  | .duplicate name scope address =>
    Text.quoted name ++ s!" already declared in {scope} scope at {address.toNat}: duplicate symbol"
  | .notFound name => Text.quoted name ++ ": symbol not found"

/-- A stack of scopes over the global one. -/
structure SymbolTable where
  global : Scope := { name := "global" }
  /-- The open local scopes, the innermost first. -/
  locals : List Scope := []
  /-- How many scopes were opened without a name. -/
  unnamed : Nat := 0
  deriving DecidableEq, Repr, Inhabited

namespace SymbolTable

/-- A table that holds nothing. -/
def empty : SymbolTable := {}

/-- The innermost scope. -/
def current (t : SymbolTable) : Scope := t.locals.headD t.global

/-- Adds a symbol to the innermost scope. -/
def add (t : SymbolTable) (s : Symbol) : SymbolTable :=
  match t.locals with
  | [] => { t with global := { t.global with symbols := t.global.symbols.push s } }
  | scope :: outer => { t with locals := { scope with symbols := scope.symbols.push s } :: outer }

/-- Gives a name an address in the innermost scope. -/
def declare (t : SymbolTable) (name : String) (address : UInt32) :
    Except SymbolError SymbolTable :=
  match t.current.find? name with
  | some earlier => .error (.duplicate name t.current.name earlier)
  | none => .ok (t.add ⟨name, address⟩)

/-- The address of a visible name, from the innermost scope outwards. -/
def find? (t : SymbolTable) (name : String) : Option UInt32 :=
  (t.locals ++ [t.global]).findSome? (·.find? name)

/-- The address of a visible name. -/
def lookUp (t : SymbolTable) (name : String) : Except SymbolError UInt32 :=
  match t.find? name with
  | some address => .ok address
  | none => .error (.notFound name)

/-- Whether a name is visible. -/
def contains (t : SymbolTable) (name : String) : Bool := (t.find? name).isSome

/-- Opens a scope with a name. -/
def pushNamed (t : SymbolTable) (name : String) : SymbolTable :=
  { t with locals := { name } :: t.locals }

/-- Opens a scope named for its number. -/
def push (t : SymbolTable) : SymbolTable :=
  { t with unnamed := t.unnamed + 1 }.pushNamed s!"local{t.unnamed + 1}"

/-- Closes the innermost scope; the global one stays. -/
def pop (t : SymbolTable) : SymbolTable := { t with locals := t.locals.tail }

/-- Closes every local scope. -/
def toGlobal (t : SymbolTable) : SymbolTable := { t with locals := [] }

/-- Whether no local scope is open. -/
def isGlobal (t : SymbolTable) : Bool := t.locals.isEmpty

/-- The number of scopes, the global one included. -/
def depth (t : SymbolTable) : Nat := t.locals.length + 1

/-- The global symbols in order of declaration. -/
def globals (t : SymbolTable) : List Symbol := t.global.symbols.toList

end SymbolTable

end RegAsm
