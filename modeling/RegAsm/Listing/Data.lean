/-
RegAsm.Listing.Data — bytes as data directives.

Bytes are cut into runs of printable characters and runs of others.  A
printable run of four or more is written as a string, together with the zero
byte behind it if there is one; all other bytes are written as numbers, at most
sixteen on a line.
-/
import RegAsm.Text.Hex
import RegAsm.Token.Literal

namespace RegAsm.Listing

/-- Whether a byte is a printable ASCII character. -/
def isPrintableByte (b : UInt8) : Bool := 0x20 ≤ b && b ≤ 0x7E

/-- A run of bytes that are all printable or all not. -/
structure ByteRun where
  printable : Bool
  bytes : List UInt8
  deriving DecidableEq, Repr

/-- Puts a byte in front of some runs. -/
def addByte (b : UInt8) : List ByteRun → List ByteRun
  | [] => [⟨isPrintableByte b, [b]⟩]
  | run :: rest =>
    if run.printable = isPrintableByte b then ⟨run.printable, b :: run.bytes⟩ :: rest
    else ⟨isPrintableByte b, [b]⟩ :: run :: rest

/-- The longest runs that make up some bytes. -/
def byteRuns (bytes : List UInt8) : List ByteRun := bytes.foldr addByte []

/-- Cuts a list into pieces of `n`.  The first piece already holds `piece`, the
last item first, and has room for `room` more. -/
def piecesOf {α : Type} (n room : Nat) (piece : List α) : List α → List (List α)
  | [] => if piece.isEmpty then [] else [piece.reverse]
  | x :: rest =>
    match room with
    | 0 => piece.reverse :: piecesOf n (n - 1) [x] rest
    | k + 1 => piecesOf n k (x :: piece) rest

/-- A data directive with the given items. -/
def dataLine (items : String) : String := "    db       " ++ items ++ "\n"

/-- A byte as a source spells it. -/
def byteText (b : UInt8) : String := "$" ++ String.ofList (Text.hexUpper 2 b.toNat)

/-- Bytes as numbers, sixteen on a line. -/
def numberLines (bytes : List UInt8) : List String :=
  (piecesOf 16 16 [] bytes).map fun piece => dataLine (String.intercalate ", " (piece.map byteText))

/-- Whether some runs start with a zero byte. -/
def startsWithZero : List ByteRun → Bool
  | ⟨_, 0 :: _⟩ :: _ => true
  | _ => false

/-- The lines of some runs.  With `skip` the first byte is already written. -/
def runLines (skip : Bool) : List ByteRun → List String
  | [] => []
  | run :: rest =>
    let bytes := if skip then run.bytes.tail else run.bytes
    if run.printable && 4 ≤ bytes.length then
      let text := Token.quote (String.ofList (bytes.map fun b => Char.ofNat b.toNat))
      if startsWithZero rest then dataLine (text ++ ", $00") :: runLines true rest
      else dataLine text :: runLines false rest
    else numberLines bytes ++ runLines false rest

/-- Bytes as data directives. -/
def dataLines (bytes : List UInt8) : List String := runLines false (byteRuns bytes)

end RegAsm.Listing
