/-
RegAsm.Listing.Disassembly — an image as a source text.

Instructions are taken from their layouts in order of offset, in whatever order
layouts at one offset come; the bytes between them are data.  Labels stand in front
of the address they name, so data are cut where a label falls into them, and a label
inside an instruction cannot be placed.
-/
import RegAsm.Listing.Data
import RegAsm.Listing.Instruction

namespace RegAsm

open Machine

/-- Why an image has no listing. -/
inductive ListingError where
  /-- An instruction lies outside the image. -/
  | outside (offset total : Nat)
  /-- An instruction starts before the one in front of it ends. -/
  | overlap (offset stop : Nat)
  /-- An instruction cannot be read. -/
  | decode (e : DecodeError)
  /-- A label names an address inside an instruction. -/
  | labelInside (label : String) (offset : Nat)
  deriving DecidableEq, Repr

/-- The wording of the error. -/
def ListingError.message : ListingError → String
  | .outside offset total => (DecodeError.outside offset total).message
  | .overlap offset stop => s!"instruction at {offset} overlaps previous code ending at {stop}"
  | .decode e => e.message
  | .labelInside label offset => s!"label {label} points inside the instruction at {offset}"

namespace Listing

/-- Puts a layout before the first one that does not lie before it. -/
def insertLayout (l : Layout) : List Layout → List Layout
  | [] => [l]
  | l' :: rest => if l.offset ≤ l'.offset then l :: l' :: rest else l' :: insertLayout l rest

/-- Layouts in order of offset; those at one offset stay in order. -/
def byOffset (layouts : List Layout) : List Layout := layouts.foldr insertLayout []

/-- The labels at an address, each on a line. -/
def labelLines (labels : Labels) (address : Nat) : List String :=
  (labels.names (UInt32.ofNat address)).map fun name => name ++ ":\n"

/-- Data between two offsets, cut at the given ones, with the labels in front
of each piece. -/
def pieceLines (code : Array UInt8) (labels : Labels) (start stop : Nat) : List Nat → List String
  | [] => labelLines labels start ++ dataLines (code.extract start stop).toList
  | cut :: cuts =>
    labelLines labels start ++ dataLines (code.extract start cut).toList ++
      pieceLines code labels cut stop cuts

/-- Data between two offsets. -/
def regionLines (code : Array UInt8) (labels : Labels) (start stop : Nat) : List String :=
  if start < stop then pieceLines code labels start stop (labels.between start stop) else []

/-- Adds the lines from an offset on to those already written, given the
layouts that lie ahead. -/
def linesOnto (code : Array UInt8) (labels : Labels) (done : Array String) (start : Nat) :
    List Layout → Except ListingError (Array String)
  | [] => .ok (done ++ regionLines code labels start code.size ++ labelLines labels code.size)
  | l :: rest =>
    let offset := l.offset.toNat
    if code.size ≤ start then .ok (done ++ labelLines labels code.size)
    else if offset < start then .error (.overlap offset start)
    else
      match Instruction.decode code l with
      | .error e => .error (.decode e)
      | .ok i =>
        let stop := offset + i.length
        match labels.firstBetween? offset stop with
        | some label => .error (.labelInside label offset)
        | none =>
          let line := "    " ++ i.format labels ++ "\n"
          let done := done ++ regionLines code labels start offset ++ labelLines labels offset
          linesOnto code labels (done.push line) stop rest

/-- The first layout that lies outside an image of a size. -/
def outside? (total : Nat) (layouts : List Layout) : Option Layout :=
  layouts.find? fun l => total ≤ l.offset.toNat || total < l.stop.toNat

end Listing

/-- An image as a source text, with its layouts taken one after the other as they
were sorted. -/
def disassembleInOrder (code : Array UInt8) (layouts sorted : List Layout) (labels : Labels) :
    Except ListingError String :=
  match Listing.outside? code.size layouts with
  | some l => .error (.outside l.offset.toNat code.size)
  | none => (Listing.linesOnto code labels #[] 0 sorted).map fun lines =>
    String.join lines.toList

/-- An image as a source text.  Of the orders by offset it takes the one in which
layouts at one offset stay in order. -/
def disassemble (code : Array UInt8) (layouts : List Layout) (labels : Labels) :
    Except ListingError String :=
  disassembleInOrder code layouts (Listing.byOffset layouts) labels

end RegAsm
