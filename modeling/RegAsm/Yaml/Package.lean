/-
RegAsm.Yaml.Package — what is asked of a package that writes and reads documents.

A document is a record, and each field of a record stands under its key.  A field
holds one line, which is a scalar or a list of numbers, or a list of records whose
fields are lines.  A package turns the values of a record into a text and takes
them out of a text.  How it does that is its own affair.
-/

namespace RegAsm.Yaml

/-! ## 1. Records -/

/-- What one line behind a key holds. -/
inductive Leaf where
  | text
  /-- A number of 64 bits with a sign. -/
  | int
  /-- A number of 32 bits without a sign. -/
  | word
  /-- Numbers of 64 bits between brackets. -/
  | ints
  deriving DecidableEq, Repr

/-- A field of a record: its key, whether it is left out if it is empty, and what it
holds. -/
structure Tag (κ : Type) where
  key : String
  omitEmpty : Bool
  holds : κ

/-- The fields of a record in order.  The name stands for the record in messages. -/
structure Record (κ : Type) where
  name : String
  fields : List (Tag κ)

/-- What a field of a document holds. -/
inductive Branch where
  | leaf (l : Leaf)
  | items (r : Record Leaf)

/-! ## 2. Values -/

/-- The values of a line. -/
def Leaf.Val : Leaf → Type
  | .text => String
  | .int => Int
  | .word => UInt32
  | .ints => List Int

/-- The empty value of a line. -/
def Leaf.zero : (l : Leaf) → l.Val
  | .text => ("" : String)
  | .int => (0 : Int)
  | .word => (0 : UInt32)
  | .ints => ([] : List Int)

/-- Whether a line is empty. -/
def Leaf.isEmpty : (l : Leaf) → l.Val → Bool
  | .text, (s : String) => s == ""
  | .int, (n : Int) => n == 0
  | .word, (w : UInt32) => w == 0
  | .ints, (ns : List Int) => ns.isEmpty

/-- The values of some fields. -/
def Values {κ : Type} (V : κ → Type) : List (Tag κ) → Type
  | [] => Unit
  | t :: rest => V t.holds × Values V rest

/-- The values of fields that are all empty. -/
def Values.zero {κ : Type} {V : κ → Type} (zero : (k : κ) → V k) :
    (tags : List (Tag κ)) → Values V tags
  | [] => ()
  | t :: rest => (zero t.holds, Values.zero zero rest)

/-- The values of a field. -/
def Branch.Val : Branch → Type
  | .leaf l => l.Val
  | .items r => List (Values Leaf.Val r.fields)

/-- The empty value of a field. -/
def Branch.zero : (b : Branch) → b.Val
  | .leaf l => l.zero
  | .items r => ([] : List (Values Leaf.Val r.fields))

/-- Whether a field is empty. -/
def Branch.isEmpty : (b : Branch) → b.Val → Bool
  | .leaf l, v => l.isEmpty v
  | .items _, vs => List.isEmpty vs

/-! ## 3. Packages -/

/-- Writes and reads documents.  It fails with errors of its own kind. -/
structure Package (ε : Type) where
  /-- The pieces of a document in the order in which they are handed over, with lines
  indented by a number of spaces. -/
  encode : Nat → (r : Record Branch) → Values Branch.Val r.fields → List String
  /-- The values of the first document of a text. -/
  decode : (r : Record Branch) → String → Except ε (Values Branch.Val r.fields)
  /-- The error if a piece is refused for a reason. -/
  refused : String → ε
  /-- The error if the text cannot be had for a reason. -/
  broken : String → ε
  /-- The wording of an error. -/
  message : ε → String

end RegAsm.Yaml
