/-
RegAsm.DebugMap.Text — a debug map as a text.

    source: a.asm
    size: 25
    symbols:
      - name: start
        address: 0
    instructions:
      - offset: 0
        length: 5
        widths: [1, 1]

A source without a name and an instruction without widths leave out their line.
-/
import RegAsm.DebugMap.Basic
import RegAsm.Yaml.Package

namespace RegAsm.DebugMap

open Yaml (Branch Leaf Package Record Values)

/-! ## 1. Maps as records -/

/-- The fields of a symbol. -/
def symbolRecord : Record Leaf where
  name := "assembler.Symbol"
  fields := [⟨"name", false, .text⟩, ⟨"address", false, .word⟩]

/-- The fields of a layout. -/
def layoutRecord : Record Leaf where
  name := "cpu.Layout"
  fields := [⟨"offset", false, .word⟩, ⟨"length", false, .int⟩, ⟨"widths", true, .ints⟩]

/-- The fields of a map. -/
def record : Record Branch where
  name := "assembler.DebugMap"
  fields :=
    [⟨"source", true, .leaf .text⟩,
     ⟨"size", false, .leaf .int⟩,
     ⟨"symbols", false, .items symbolRecord⟩,
     ⟨"instructions", false, .items layoutRecord⟩]

/-- The values of a map. -/
def values (m : DebugMap) : Values Branch.Val record.fields :=
  (m.source, m.size, m.symbols.map fun s => (s.name, s.address, ()),
    m.layouts.map fun l => (l.offset, l.length, l.widths, ()), ())

/-- The map with some values. -/
def ofValues : Values Branch.Val record.fields → DebugMap
  | (source, size, symbols, layouts, ()) =>
    { source
      size
      symbols := List.map (fun (name, address, ()) => { name, address }) symbols
      layouts := List.map (fun (offset, length, widths, ()) => { offset, length, widths }) layouts }

/-! ## 2. Texts -/

/-- Why a map cannot be written or read. -/
inductive TextError (ε : Type) where
  | encoding (e : ε)
  | decoding (e : ε)
  deriving DecidableEq, Repr

section Packages

variable {ε : Type} (package : Package ε)

/-- The wording of the error. -/
def TextError.message : TextError ε → String
  | .encoding e => "encoding debug map: " ++ package.message e
  | .decoding e => "decoding debug map: " ++ package.message e

/-- The pieces of a map's text.  Lines are indented by two spaces. -/
def pieces (m : DebugMap) : List String := package.encode 2 record m.values

/-- The map that a text describes. -/
def read (text : String) : Except (TextError ε) DebugMap :=
  match package.decode record text with
  | .ok vs => .ok (ofValues vs)
  | .error e => .error (.decoding e)

end Packages

end RegAsm.DebugMap
