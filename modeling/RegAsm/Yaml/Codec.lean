/-
RegAsm.Yaml.Codec — a package of its own for documents.

Fields are written in order, and one that is empty may be left out.  Keys that a
record does not know are ignored, and what is missing keeps its empty value.
-/
import RegAsm.Yaml.Decoder
import RegAsm.Yaml.Package
import RegAsm.Yaml.Reader
import RegAsm.Yaml.Written

namespace RegAsm.Yaml

/-! ## 1. Writing -/

/-- A value behind its key, with the end of its line.  Lines after the first are
indented by a number of spaces. -/
def leafText (indent : Nat) : (l : Leaf) → l.Val → List Char
  | .text, (s : String) => writtenLine indent s
  | .int, (n : Int) => (toString n).toList ++ ['\n']
  | .word, (w : UInt32) => (toString w.toNat).toList ++ ['\n']
  | .ints, (ns : List Int) => flowText (ns.map fun n => (toString n).toList) ++ ['\n']

/-- The entries of the fields that are written. -/
def entriesOf {κ : Type} {V : κ → Type} (isEmpty : (k : κ) → V k → Bool)
    (text : (k : κ) → V k → List Char) :
    (tags : List (Tag κ)) → Values V tags → List (String × List Char)
  | [], _ => []
  | t :: rest, (v, vs) =>
    if t.omitEmpty && isEmpty t.holds v then entriesOf isEmpty text rest vs
    else (t.key, text t.holds v) :: entriesOf isEmpty text rest vs

/-- The text of a field behind its colon. -/
def branchText (indent : Nat) : (b : Branch) → b.Val → List Char
  | .leaf l, v => ' ' :: leafText indent l v
  | .items r, (vs : List (Values Leaf.Val r.fields)) =>
    if vs.isEmpty then ' ' :: flowText [] ++ ['\n']
    else
      let text := fun (l : Leaf) (v : l.Val) => ' ' :: leafText (indent + 2 + indent) l v
      '\n' :: itemsText indent (vs.map fun v =>
        mappingText (indent + 2) (entriesOf Leaf.isEmpty text r.fields v))

/-! ## 2. Reading -/

namespace Decoder

/-- A line. -/
def leaf : (l : Leaf) → Decoder l.Val
  | .text => text
  | .int => int
  | .word => word
  | .ints => list "[]int" int

/-- A field of the values behind the first one. -/
def Field.behind {α σ : Type} (f : Field σ) : Field (α × σ) where
  key := f.key
  take n s := ((s.1, (f.take n s.2).1), (f.take n s.2).2)

/-- The fields of a record. -/
def fieldsOf {κ : Type} {V : κ → Type} (d : (k : κ) → Decoder (V k)) :
    (tags : List (Tag κ)) → List (Field (Values V tags))
  | [] => []
  | t :: rest =>
    field t.key (d t.holds) (fun (s : V t.holds × Values V rest) v => (v, s.2)) ::
      (fieldsOf d rest).map Field.behind

/-- A field of a document. -/
def branch : (b : Branch) → Decoder b.Val
  | .leaf l => leaf l
  | .items r =>
    list ("[]" ++ r.name) (record r.name (Values.zero Leaf.zero r.fields) (fieldsOf leaf r.fields))

end Decoder

/-! ## 3. The package -/

/-- Why a document cannot be written or read. -/
inductive Failure where
  /-- The text holds no document. -/
  | noDocument
  | malformed (e : Malformed)
  /-- Some values cannot be taken. -/
  | badValues (complaints : List Complaint)
  | refused (reason : String)
  | broken (reason : String)
  deriving DecidableEq, Repr

/-- The wording of the error. -/
def Failure.message : Failure → String
  | .noDocument => "EOF"
  | .malformed e => e.message
  | .badValues complaints =>
    "yaml: unmarshal errors:\n  " ++ "\n  ".intercalate (complaints.map (·.message))
  | .refused reason => "yaml: write error: " ++ reason
  | .broken reason => "yaml: input error: " ++ reason

/-- The values of the first document of a text. -/
def decode (r : Record Branch) (text : String) :
    Except Failure (Values Branch.Val r.fields) :=
  let zero := Values.zero Branch.zero r.fields
  match readDocument text with
  | .error e => .error (.malformed e)
  | .ok none => .error .noDocument
  | .ok (some node) =>
    match Decoder.record r.name zero (Decoder.fieldsOf Decoder.branch r.fields) node with
    | (vs, []) => .ok (vs.getD zero)
    | (_, complaints) => .error (.badValues complaints)

/-- Writes a document in one piece. -/
def codec : Package Failure where
  encode indent r vs :=
    [String.ofList (mappingText 0 (entriesOf Branch.isEmpty (branchText indent) r.fields vs))]
  decode := decode
  refused := .refused
  broken := .broken
  message := Failure.message

end RegAsm.Yaml
