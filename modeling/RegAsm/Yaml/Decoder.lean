/-
RegAsm.Yaml.Decoder — values out of nodes.

A decoder takes what it can from a node and complains about the rest, so that
one reading reports every bad value.  A null gives no value and no complaint.
-/
import RegAsm.Text.Quoted
import RegAsm.Text.Utf8
import RegAsm.Yaml.Node

namespace RegAsm.Yaml

/-! ## 1. Complaints -/

/-- Why a value could not be taken. -/
inductive Complaint where
  /-- A value of the wrong kind.  Only a scalar shows its text. -/
  | mismatch (line : Nat) (tag : String) (text : Option String) (target : String)
  /-- A key that a mapping already has. -/
  | repeatedKey (line : Nat) (key : String) (first : Nat)
  deriving DecidableEq, Repr

/-- A text of more than ten bytes is cut after seven. -/
def excerpt (text : String) : String :=
  let bytes := Text.encode text
  if 10 < bytes.length then String.ofList (Text.decode (bytes.take 7)) ++ "..." else text

/-- The wording of a complaint. -/
def Complaint.message : Complaint → String
  | .mismatch line tag text target =>
    let shown := match text with
      | some t => " `" ++ excerpt t ++ "`"
      | none => ""
    "line " ++ toString line ++ ": cannot unmarshal " ++ tag ++ shown ++ " into " ++ target
  | .repeatedKey line key first =>
    "line " ++ toString line ++ ": mapping key " ++ Text.quoted key ++
      " already defined at line " ++ toString first

/-! ## 2. Kinds of nodes -/

/-- The name of a meaning. -/
def Meaning.tag : Meaning → String
  | .null => "!!null"
  | .bool => "!!bool"
  | .int _ => "!!int"
  | .float _ => "!!float"
  | .timestamp => "!!timestamp"
  | .text => "!!str"

/-- What a scalar stands for.  Quotes make a text of it, unless a tag says
otherwise. -/
def scalarMeaning (tag : Option String) (isQuoted : Bool) (value : String) : Meaning :=
  match tag with
  | none => if isQuoted then .text else meaning value
  | some t => if t == "!!str" then .text else meaning value

namespace Node

/-- The name of a node's kind. -/
def tag : Node → String
  | .scalar tag isQuoted value _ =>
    match tag with
    | some t => t
    | none =>
      if value == "<<" && !isQuoted then "!!merge" else (scalarMeaning none isQuoted value).tag
  | .sequence _ _ => "!!seq"
  | .mapping _ _ => "!!map"

/-- The complaint about a node of the wrong kind. -/
def mismatch (n : Node) (target : String) : Complaint :=
  .mismatch n.line n.tag (match n with | .scalar _ _ value _ => some value | _ => none) target

/-- Whether a node is null. -/
def isNull : Node → Bool
  | .scalar tag isQuoted value _ => scalarMeaning tag isQuoted value == .null
  | _ => false

/-- Whether a key asks for the entries of another mapping. -/
def isMerge : Node → Bool
  | .scalar none false value _ => value == "<<"
  | _ => false

/-- Whether two keys are the same. -/
def sameKey : Node → Node → Bool
  | .scalar _ _ a _, .scalar _ _ b _ => a == b
  | .sequence _ _, .sequence _ _ => true
  | .mapping _ _, .mapping _ _ => true
  | _, _ => false

/-- The text of a key as it is reported. -/
def keyText : Node → String
  | .scalar _ _ value _ => value
  | _ => ""

end Node

/-! ## 3. Decoders -/

/-- Takes a value from a node. -/
def Decoder (α : Type) := Node → Option α × List Complaint

namespace Decoder

/-- A decoder for scalars.  It gets the meaning and the text of the scalar. -/
def scalar {α : Type} (target : String) (take? : Meaning → String → Option α) : Decoder α :=
  fun n =>
    match n with
    | .scalar tag isQuoted value _ =>
      match scalarMeaning tag isQuoted value with
      | .null => (none, [])
      | m => match take? m value with
        | some a => (some a, [])
        | none => (none, [n.mismatch target])
    | _ => (none, [n.mismatch target])

/-- A text.  Numbers and truth values keep the way they are written. -/
def text : Decoder String := scalar "string" fun _ value => some value

/-- The 64-bit number for a number with a fraction.  Below the range it is the
least one. -/
def intOfFraction? : Fraction → Option Int
  | .notANumber => none
  | .infinite isNegative => if isNegative then some (-(Int.pow 2 63)) else none
  | .finite whole =>
    if Int.pow 2 63 < whole then none
    else if -(Int.pow 2 63) ≤ whole ∧ whole < Int.pow 2 63 then some whole
    else some (-(Int.pow 2 63))

/-- A number of 64 bits with a sign.  A fraction is cut. -/
def int : Decoder Int :=
  scalar "int" fun m _ =>
    match m with
    | .int n => if -(Int.pow 2 63) ≤ n ∧ n < Int.pow 2 63 then some n else none
    | .float x => intOfFraction? x
    | _ => none

/-- The number of 32 bits for a number with a fraction.  The one just past 64
bits counts as zero. -/
def wordOfFraction? : Fraction → Option UInt32
  | .finite whole =>
    if 0 ≤ whole ∧ whole < Int.pow 2 32 then some (UInt32.ofNat whole.toNat)
    else if whole = Int.pow 2 64 then some 0
    else none
  | _ => none

/-- A number of 32 bits without a sign.  A fraction is cut. -/
def word : Decoder UInt32 :=
  scalar "uint32" fun m _ =>
    match m with
    | .int n => if 0 ≤ n ∧ n < Int.pow 2 32 then some (UInt32.ofNat n.toNat) else none
    | .float x => wordOfFraction? x
    | _ => none

/-- A list.  Entries without a value are left out. -/
def list {α : Type} (target : String) (item : Decoder α) : Decoder (List α) := fun n =>
  match n with
  | .sequence items _ =>
    let results := items.map item
    (some (results.filterMap (·.1)), results.flatMap (·.2))
  | _ => if n.isNull then (some [], []) else (none, [n.mismatch target])

/-- A field of a record: its key and how it is taken. -/
structure Field (σ : Type) where
  key : String
  take : Node → σ → σ × List Complaint

/-- A field that keeps its old value if there is no new one. -/
def field {σ α : Type} (key : String) (d : Decoder α) (set : σ → α → σ) : Field σ where
  key
  take n s :=
    match d n with
    | (some a, complaints) => (set s a, complaints)
    | (none, complaints) => (s, complaints)

/-- The complaints about keys that come again. -/
def repeatedKeys : List (Node × Node) → List Complaint
  | [] => []
  | (key, _) :: rest =>
    (rest.filter (Node.sameKey key ·.1)).map
      (fun e => .repeatedKey e.1.line e.1.keyText key.line) ++ repeatedKeys rest

/-- The entries of the mappings that a key asks for. -/
def mergedEntries : Node → List (Node × Node)
  | .mapping entries _ => entries
  | .sequence items _ => items.flatMap fun
    | .mapping entries _ => entries
    | _ => []
  | _ => []

/-- The entries of a mapping, and after them those of other mappings whose keys
are not its own. -/
def withMerged (entries : List (Node × Node)) : List (Node × Node) :=
  let own := entries.filter (!·.1.isMerge)
  let others := (entries.filter (·.1.isMerge)).flatMap fun e => mergedEntries e.2
  others.foldl (fun all e => if all.any (Node.sameKey ·.1 e.1) then all else all ++ [e]) own

/-- Takes one entry of a mapping.  Unknown keys are left alone. -/
def takeEntry {σ : Type} (fields : List (Field σ)) (acc : σ × List Complaint)
    (entry : Node × Node) : σ × List Complaint :=
  match text entry.1 with
  | (none, complaints) => (acc.1, acc.2 ++ complaints)
  | (some key, _) =>
    match fields.find? (·.key == key) with
    | none => acc
    | some f =>
      let (s, complaints) := f.take entry.2 acc.1
      (s, acc.2 ++ complaints)

/-- A record.  A mapping with a repeated key is not taken at all. -/
def record {σ : Type} (target : String) (zero : σ) (fields : List (Field σ)) : Decoder σ :=
  fun n =>
    match n with
    | .mapping entries _ =>
      match repeatedKeys entries with
      | [] =>
        let (s, complaints) := (withMerged entries).foldl (takeEntry fields) (zero, [])
        (some s, complaints)
      | complaints => (none, complaints)
    | _ => if n.isNull then (none, []) else (none, [n.mismatch target])

end Decoder

end RegAsm.Yaml
