/-
RegAsm.Proofs.TwoPass — one pass with patches does what two passes would.

A first pass over the statements, repetitions written out, gives every label
its address: the sizes of the statements before it, added up.  A second pass
writes the statements one after the other, with all labels known.  The image
that an assembler leaves after its single pass is the one that the second pass
would write (`image_eq_twoPass`).

1. The two passes.
2. The single pass.
-/
import RegAsm.Proofs.Decoding
import RegAsm.Proofs.Reading

namespace RegAsm

open Machine
open Source (Position)

/-! ## 1. Two passes -/

/-- The first pass: every label of a program with its address. -/
def firstPass (program : List Statement) : List Declaration := declarationsFrom 0 (unroll program)

/-- The second pass: the statements of a program one after the other, where a
name stands for what the region rule says. -/
def secondPass? (program : List Statement) : Option (List UInt8) :=
  imageFrom? regionRule [] 0 (unroll program)

/-- Under the two rules a program has the same image, if its local labels are
the ones with a leading dot. -/
theorem imageFrom?_regionRule {before : List Declaration} {address : Nat} {ss : List Statement}
    (h : WellNamed (before ++ declarationsFrom address ss)) :
    imageFrom? deferredRule before address ss = imageFrom? regionRule before address ss := by
  induction ss generalizing before address with
  | nil => rfl
  | cons s rest ih =>
    rw [declarationsFrom] at h
    have haddress : NameRule.address? deferredRule before
          (s.declarations address ++ declarationsFrom (address + s.size) rest) =
        NameRule.address? regionRule before
          (s.declarations address ++ declarationsFrom (address + s.size) rest) := by
      funext name
      rw [NameRule.address?, NameRule.address?, deferredRule_eq_regionRule h]
    have hrest : WellNamed (before ++ s.declarations address ++
        declarationsFrom (address + s.size) rest) := by
      rwa [List.append_assoc]
    simp only [imageFrom?, haddress, ih hrest]

theorem Assembled.secondPass? {program : List Statement} {image : Image} {run : Run}
    (h : Assembled program image run) (hwritten : ∀ s ∈ program, s.Written) :
    secondPass? program = some image.toList := by
  have hnamed : WellNamed ([] ++ declarationsFrom 0 (unroll program)) :=
    wellNamed_declarationsFrom (written_unroll hwritten) 0
  rw [RegAsm.secondPass?, ← imageFrom?_regionRule hnamed, h.bytes]

/-- The bytes of a statement stand at the sum of the sizes before it. -/
theorem secondPass?_split {program : List Statement} {bytes : List UInt8}
    (h : secondPass? program = some bytes) {before after : List Statement} {s : Statement}
    (hsplit : unroll program = before ++ s :: after) :
    s.bytes? (regionRule.address? (declarationsFrom 0 before)
        (declarationsFrom (sizeSum before) (s :: after))) =
      some ((bytes.drop (sizeSum before)).take s.size) := by
  rw [RegAsm.secondPass?, hsplit] at h
  obtain ⟨xs, bs, ys, rfl, hlen, hbs⟩ := imageFrom?_split h
  rw [List.nil_append, Nat.zero_add] at hbs
  rw [hbs, ← hlen, ← s.length_of_bytes? hbs, List.drop_left, List.take_left]

/-! ## 2. One pass -/

/-- The image of a program that was read from a text is what the two passes
give.  The statement behind `before` takes the bytes from `sizeSum before` on;
its names stand for the addresses that the region rule finds among the labels
before and behind it, and there is one global label of a name at most.  The
labels are kept in order, each with its address. -/
theorem image_eq_twoPass {a a' : Assembler} {source : String} {program : List Statement}
    {image : Image} (hparse : parse source = .ok program)
    (h : a.assembleProgram program = (.ok image, a')) (hsize : image.size < 2 ^ 32) :
    secondPass? program = some image.toList ∧
    (∀ before s after, unroll program = before ++ s :: after →
      s.bytes? (regionRule.address? (declarationsFrom 0 before)
          (declarationsFrom (sizeSum before) (s :: after))) =
        some ((image.toList.drop (sizeSum before)).take s.size)) ∧
    (((firstPass program).filter (·.isGlobal)).map (·.name)).Nodup ∧
    a'.symbols = (firstPass program).map (·.symbol) := by
  have hasm := Assembler.assembled h hsize
  have hbytes := hasm.secondPass? (written_of_parse hparse)
  exact ⟨hbytes, fun before s after hsplit => secondPass?_split hbytes hsplit, hasm.nodup,
    hasm.declared⟩

/-- Whether a text gives an image with a property, if the parser remembers
nothing.  This can be evaluated. -/
def forgetfully (source : String) (P : List Statement → Image → Run → Bool) : Bool :=
  match (Parser.ofTokens (tokenize source) false).parse.1 with
  | .error _ => false
  | .ok program =>
    match assembleProgram program with
    | (.ok image, run) => P program image run
    | (.error _, _) => false

/-- What a text gives if the parser remembers nothing, it gives. -/
theorem exists_image_of_forgetfully {source : String} {P : List Statement → Image → Run → Bool}
    (h : forgetfully source P = true) :
    ∃ program image a', parse source = .ok program ∧
      ({} : Assembler).assembleProgram program = (.ok image, a') ∧
      P program image a'.last = true := by
  unfold forgetfully at h
  split at h
  · cases h
  · rename_i program hparse
    split at h
    · rename_i image run hrun
      refine ⟨program, image, ⟨run⟩, parse_iff_forgetful.mpr hparse, ?_, h⟩
      have hfirst : ({} : Assembler).last.assemble program = (.ok image, run) := hrun
      rw [Assembler.assembleProgram, hfirst]
      rfl
    · cases h

/-- Names that wait for the end, for a label that is shadowed before it is seen
and for one behind a repetition. -/
def waitingNames : String :=
  "jmp end\n.a: hlt\njmp .b\n.b: times 2 times 2 mov A, .a\n.b: end: .a: jmp .a"

theorem image_eq_twoPass_waitingNames :
    ∃ program image a', parse waitingNames = .ok program ∧
      ({} : Assembler).assembleProgram program = (.ok image, a') ∧ image.size < 2 ^ 32 ∧
      secondPass? program = some image.toList ∧
      a'.symbols = (firstPass program).map (·.symbol) := by
  have hrun : forgetfully waitingNames (fun _ image _ => image.size < 2 ^ 32) = true := by
    decide +kernel
  obtain ⟨program, image, a', hparse, hasm, hsize⟩ := exists_image_of_forgetfully hrun
  have hbound : image.size < 2 ^ 32 := of_decide_eq_true hsize
  obtain ⟨hbytes, -, -, hsymbols⟩ := image_eq_twoPass hparse hasm hbound
  exact ⟨program, image, a', hparse, hasm, hbound, hbytes, hsymbols⟩

end RegAsm
