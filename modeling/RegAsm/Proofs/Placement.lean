/-
RegAsm.Proofs.Placement — what can be said of a program before it is run.

A repetition stands for copies of its body, so a program is first written out
as a list of statements without repetitions; a run over the one is a run over
the other (`emitAll_unroll`).  How many bytes a statement takes depends on the
statement alone, not on where any label lies, so the labels and the places of
the instructions are known from the sizes (`declarationsFrom`, `layoutsFrom`),
and the image is known as soon as a rule says what a name stands for
(`imageFrom?`).

1. Repetitions written out.
2. What placing a statement does to a run.
3. The size and the bytes of a statement.
4. Labels, places and image of a list of statements.
-/
import Mathlib
import RegAsm.Assembly.Assembler

namespace RegAsm

open Machine
open Source (Position)

/-! ## 1. Repetitions -/

/-- The statement with every repetition written out, nested ones included. -/
def Statement.unrolled : Statement → List Statement
  | .times count body _ => (List.replicate count.toNat body.unrolled).flatten
  | s => [s]

/-- A program with every repetition written out. -/
def unroll (program : List Statement) : List Statement := program.flatMap Statement.unrolled

/-- Whether a statement is placed as it stands, that is, repeats no other. -/
def Statement.isSimple : Statement → Bool
  | .times _ _ _ => false
  | _ => true

theorem Statement.isSimple_of_mem_unrolled (s : Statement) :
    ∀ t ∈ s.unrolled, t.isSimple = true := by
  induction s with
  | times count body pos ih =>
    intro t ht
    simp only [unrolled, List.mem_flatten, List.mem_replicate] at ht
    obtain ⟨ts, ⟨-, rfl⟩, ht⟩ := ht
    exact ih t ht
  | _ => intro t ht; simp only [unrolled, List.mem_singleton] at ht; subst ht; rfl

theorem isSimple_of_mem_unroll {program : List Statement} {s : Statement}
    (h : s ∈ unroll program) : s.isSimple = true := by
  obtain ⟨t, -, ht⟩ := List.mem_flatMap.mp h
  exact t.isSimple_of_mem_unrolled s ht

namespace Run

theorem emitAll_append (xs ys : List Statement) (r : Run) :
    emitAll (xs ++ ys) r = (emitAll xs r).bind (emitAll ys) := by
  induction xs generalizing r with
  | nil => rfl
  | cons s rest ih =>
    simp only [List.cons_append, emitAll]
    cases emit s r with
    | ok r' => exact ih r'
    | error e => rfl

theorem emitAll_singleton (s : Statement) (r : Run) : emitAll [s] r = emit s r := by
  simp only [emitAll]
  cases emit s r <;> rfl

/-- Doing one thing a number of times is going through as many copies. -/
theorem repeatedly_eq_emitAll (ss : List Statement) (f : Run → Except (Fault × Run) Run)
    (hf : ∀ r, f r = emitAll ss r) (n : Nat) (r : Run) :
    repeatedly f n r = emitAll (List.replicate n ss).flatten r := by
  induction n generalizing r with
  | zero => rfl
  | succ n ih =>
    rw [List.replicate_succ, List.flatten_cons, emitAll_append, repeatedly, hf r]
    cases emitAll ss r with
    | ok r' => exact ih r'
    | error e => rfl

theorem emit_eq_emitAll_unrolled (s : Statement) (r : Run) :
    emit s r = emitAll s.unrolled r := by
  induction s generalizing r with
  | times count body pos ih =>
    rw [emit, Statement.unrolled]
    exact repeatedly_eq_emitAll body.unrolled (emit body) ih count.toNat r
  | _ => rw [Statement.unrolled, emitAll_singleton]; simp

/-- A run over a program is a run over its statements written out. -/
theorem emitAll_unroll (program : List Statement) (r : Run) :
    emitAll (unroll program) r = emitAll program r := by
  induction program generalizing r with
  | nil => rfl
  | cons s rest ih =>
    rw [unroll, List.flatMap_cons, emitAll_append, ← emit_eq_emitAll_unrolled, emitAll]
    cases emit s r with
    | ok r' => exact ih r'
    | error e => rfl

/-! ## 2. Placing a statement -/

section Placing

variable {r r' : Run} {pos : Position}

/-- Statements are placed by placing the first one and then the others. -/
theorem emitAll_cons_eq_ok_iff {s : Statement} {rest : List Statement} :
    emitAll (s :: rest) r = .ok r' ↔ ∃ r₁, emit s r = .ok r₁ ∧ emitAll rest r₁ = .ok r' := by
  rw [emitAll]
  cases emit s r <;> simp

theorem exists_table_of_declare {name : String} (h : r.declare name pos = .ok r') :
    ∃ table events, r' =
      { r with table, declared := r.declared.push ⟨name, r.offset⟩, events } := by
  rw [declare] at h
  split at h
  · cases h
  · cases h
    exact ⟨_, _, rfl⟩

/-- A global label patches, ends the region and is declared. -/
theorem exists_table_of_emit_label {name : String} (h : emit (.label name pos) r = .ok r') :
    ∃ table events, r' = { r.patch.closeRegion with
      table
      declared := r.patch.closeRegion.declared.push ⟨name, r.patch.closeRegion.offset⟩
      events } := by
  rw [emit] at h
  obtain ⟨table, events, rfl⟩ := exists_table_of_declare h
  exact ⟨table, events, rfl⟩

/-- A local label is declared, and nothing else happens. -/
theorem exists_table_of_emit_localLabel {name : String}
    (h : emit (.localLabel name pos) r = .ok r') :
    ∃ table events, r' =
      { r with table, declared := r.declared.push ⟨name, r.offset⟩, events } := by
  rw [emit] at h
  obtain ⟨table, events, rfl⟩ := exists_table_of_declare h
  exact ⟨table, events, rfl⟩

/-- An instruction is written if it has a machine form. -/
theorem emit_instruction_eq_ok_iff {m : Mnemonic} {operands : List Operand} :
    emit (.instruction m operands pos) r = .ok r' ↔ ∃ e, Encoding.of m operands = .ok e ∧
      r' = r.writeEncoding (.instruction m operands pos) e := by
  rw [emit]
  cases Encoding.of m operands <;> simp [eq_comm]

/-- Data are written if they have bytes. -/
theorem emit_data_eq_ok_iff {items : List Operand} :
    emit (.data items pos) r = .ok r' ↔ ∃ bytes, dataBytes items = .ok bytes ∧
      r' = (r.append bytes).report (.placed r.offset bytes.length) := by
  rw [emit]
  cases dataBytes items <;> simp [eq_comm]

end Placing

end Run

/-! ## 3. Statements -/

/-- Two pieces of an image one behind the other, if both are known. -/
def joined? (a b : Option (List UInt8)) : Option (List UInt8) :=
  a.bind fun xs => b.map (xs ++ ·)

@[simp]
theorem none_joined? (b : Option (List UInt8)) : joined? none b = none := rfl

@[simp]
theorem joined?_none (a : Option (List UInt8)) : joined? a none = none := by
  cases a <;> rfl

@[simp]
theorem some_joined?_some (xs ys : List UInt8) :
    joined? (some xs) (some ys) = some (xs ++ ys) := rfl

@[simp]
theorem joined?_nil (a : Option (List UInt8)) : joined? a (some []) = a := by
  cases a <;> simp

@[simp]
theorem nil_joined? (b : Option (List UInt8)) : joined? (some []) b = b := by
  cases b <;> simp

theorem joined?_assoc (a b c : Option (List UInt8)) :
    joined? (joined? a b) c = joined? a (joined? b c) := by
  cases a <;> cases b <;> cases c <;> simp

theorem joined?_eq_some {a b : Option (List UInt8)} {bytes : List UInt8}
    (h : joined? a b = some bytes) :
    ∃ xs ys, a = some xs ∧ b = some ys ∧ bytes = xs ++ ys := by
  obtain ⟨xs, hx, h⟩ := Option.bind_eq_some_iff.mp h
  obtain ⟨ys, hy, rfl⟩ := Option.map_eq_some_iff.mp h
  exact ⟨xs, ys, hx, hy, rfl⟩

/-- Two pieces of which the first has a known length. -/
theorem joined?_eq_append_iff {a b : Option (List UInt8)} {xs ys : List UInt8}
    (hlength : ∀ zs, a = some zs → zs.length = xs.length) :
    joined? a b = some (xs ++ ys) ↔ a = some xs ∧ b = some ys := by
  constructor
  · intro h
    obtain ⟨xs', ys', hx, hy, heq⟩ := joined?_eq_some h
    obtain ⟨rfl, rfl⟩ := List.append_inj heq (hlength xs' hx).symm
    exact ⟨hx, hy⟩
  · rintro ⟨rfl, rfl⟩
    rfl

theorem isSome_joined? (a b : Option (List UInt8)) :
    (joined? a b).isSome = true ↔ a.isSome = true ∧ b.isSome = true := by
  cases a <;> cases b <;> simp

/-- The bytes of a field, given what the labels stand for. -/
def Field.bytes? (address? : String → Option UInt32) : Field → Option (List UInt8)
  | .byte b => some [b]
  | .value v size => some (valueBytes v size)
  | .address label _ => (address? label).map fourBytes

/-- The bytes of some fields. -/
def fieldBytes? (address? : String → Option UInt32) : List Field → Option (List UInt8)
  | [] => some []
  | f :: rest => joined? (f.bytes? address?) (fieldBytes? address? rest)

/-- The bytes of an instruction. -/
def Encoding.bytes? (address? : String → Option UInt32) (e : Encoding) : Option (List UInt8) :=
  joined? (some e.head) (fieldBytes? address? e.fields)

namespace Statement

/-- The number of bytes that a statement takes. -/
def size : Statement → Nat
  | .instruction m operands _ =>
    match Encoding.of m operands with
    | .ok e => e.length
    | .error _ => 0
  | .data items _ =>
    match dataBytes items with
    | .ok bytes => bytes.length
    | .error _ => 0
  | _ => 0

/-- Whether a statement has a machine form. -/
def isEncodable : Statement → Bool
  | .label _ _ | .localLabel _ _ => true
  | .instruction m operands _ => (Encoding.of m operands).isOk
  | .data items _ => (dataBytes items).isOk
  | _ => false

/-- The bytes of a statement, given what the labels stand for.  There are none
if the statement has no machine form or mentions a label that stands for
nothing. -/
def bytes? (address? : String → Option UInt32) : Statement → Option (List UInt8)
  | .label _ _ | .localLabel _ _ => some []
  | .instruction m operands _ => (Encoding.of m operands).toOption.bind (Encoding.bytes? address?)
  | .data items _ => (dataBytes items).toOption
  | .times _ _ _ | .bareTimes _ _ | .other _ _ _ _ => none

section Forms

variable {m : Mnemonic} {operands items : List Operand} {e : Encoding} {bytes : List UInt8}
  {address? : String → Option UInt32}

theorem size_instruction (he : Encoding.of m operands = .ok e) (pos : Position) :
    (Statement.instruction m operands pos).size = e.length := by
  rw [size, he]

theorem size_data (hb : dataBytes items = .ok bytes) (pos : Position) :
    (Statement.data items pos).size = bytes.length := by
  rw [size, hb]

theorem isEncodable_instruction_iff (pos : Position) :
    (Statement.instruction m operands pos).isEncodable = true ↔
      ∃ e, Encoding.of m operands = .ok e := by
  rw [isEncodable]
  cases Encoding.of m operands <;> simp [Except.isOk, Except.toBool]

theorem isEncodable_data_iff (pos : Position) :
    (Statement.data items pos).isEncodable = true ↔ ∃ bytes, dataBytes items = .ok bytes := by
  rw [isEncodable]
  cases dataBytes items <;> simp [Except.isOk, Except.toBool]

/-- An instruction has the bytes of its machine form. -/
theorem bytes?_instruction_eq_some_iff {pos : Position} :
    (Statement.instruction m operands pos).bytes? address? = some bytes ↔
      ∃ e, Encoding.of m operands = .ok e ∧ e.bytes? address? = some bytes := by
  rw [bytes?]
  cases Encoding.of m operands <;> simp [Except.toOption]

/-- Data have the same bytes whatever the labels stand for. -/
theorem bytes?_data_eq_some_iff {pos : Position} :
    (Statement.data items pos).bytes? address? = some bytes ↔ dataBytes items = .ok bytes := by
  rw [bytes?]
  cases dataBytes items <;> simp [Except.toOption]

end Forms

end Statement

theorem length_valueBytes (v : UInt32) (size : Size) : (valueBytes v size).length = size.bytes := by
  cases size <;> rfl

theorem Field.length_of_bytes? {address? : String → Option UInt32} {f : Field} {bytes : List UInt8}
    (h : f.bytes? address? = some bytes) : bytes.length = f.width := by
  cases f with
  | byte b => cases h; rfl
  | value v size => cases h; exact length_valueBytes v size
  | address label pos =>
    obtain ⟨a, -, rfl⟩ := Option.map_eq_some_iff.mp h
    rfl

theorem length_of_fieldBytes? {address? : String → Option UInt32} {fields : List Field}
    {bytes : List UInt8} (h : fieldBytes? address? fields = some bytes) :
    bytes.length = (fields.map Field.width).sum := by
  induction fields generalizing bytes with
  | nil => cases h; rfl
  | cons f rest ih =>
    obtain ⟨b, bs, hb, hbs, rfl⟩ := joined?_eq_some h
    rw [List.length_append, f.length_of_bytes? hb, ih hbs, List.map_cons, List.sum_cons]

theorem Encoding.length_eq (e : Encoding) : e.length = e.head.length + e.widths.sum := rfl

theorem Encoding.length_of_bytes? {address? : String → Option UInt32} {e : Encoding}
    {bytes : List UInt8} (h : e.bytes? address? = some bytes) : bytes.length = e.length := by
  obtain ⟨head, bs, hhead, hbs, rfl⟩ := joined?_eq_some h
  cases hhead
  rw [List.length_append, length_of_fieldBytes? hbs, Encoding.length_eq, Encoding.widths]

/-- An instruction takes at least its opcode byte. -/
theorem Encoding.length_pos (e : Encoding) : 0 < e.length := by
  rw [Encoding.length, Encoding.head, List.length_cons]
  omega

/-- The bytes of a statement are as many as its size says, whatever the labels
stand for. -/
theorem Statement.length_of_bytes? {address? : String → Option UInt32} {s : Statement}
    {bytes : List UInt8} (h : s.bytes? address? = some bytes) : bytes.length = s.size := by
  cases s with
  | label name pos => cases h; rfl
  | localLabel name pos => cases h; rfl
  | instruction m operands pos =>
    obtain ⟨e, he, hbytes⟩ := Statement.bytes?_instruction_eq_some_iff.mp h
    rw [Statement.size_instruction he, e.length_of_bytes? hbytes]
  | data items pos =>
    rw [Statement.size_data (Statement.bytes?_data_eq_some_iff.mp h)]
  | times count body pos => cases h
  | bareTimes count pos => cases h
  | other tag m operands pos => cases h

/-! ## 4. Lists of statements -/

/-- A label with the address of the byte behind it. -/
structure Declaration where
  isGlobal : Bool
  name : String
  address : Nat
  deriving DecidableEq, Repr

/-- The label as a symbol. -/
def Declaration.symbol (d : Declaration) : Symbol := ⟨d.name, UInt32.ofNat d.address⟩

/-- The labels of a statement at an address. -/
def Statement.declarations (address : Nat) : Statement → List Declaration
  | .label name _ => [⟨true, name, address⟩]
  | .localLabel name _ => [⟨false, name, address⟩]
  | _ => []

/-- The place of an instruction at an address. -/
def Encoding.layout (address : Nat) (e : Encoding) : Layout :=
  ⟨UInt32.ofNat address, e.length, e.widths.map Int.ofNat⟩

/-- The places of a statement's instructions, if it starts at an address. -/
def Statement.layouts (address : Nat) : Statement → List Layout
  | .instruction m operands _ =>
    match Encoding.of m operands with
    | .ok e => [e.layout address]
    | .error _ => []
  | _ => []

theorem Statement.layouts_instruction {m : Mnemonic} {operands : List Operand} {e : Encoding}
    (he : Encoding.of m operands = .ok e) (pos : Position) (address : Nat) :
    (Statement.instruction m operands pos).layouts address = [e.layout address] := by
  rw [layouts, he]

/-- The number of bytes that some statements take together. -/
def sizeSum (ss : List Statement) : Nat := (ss.map Statement.size).sum

/-- The labels of some statements, the first of which starts at an address. -/
def declarationsFrom (address : Nat) : List Statement → List Declaration
  | [] => []
  | s :: rest => s.declarations address ++ declarationsFrom (address + s.size) rest

/-- The places of the instructions among some statements, the first of which
starts at an address. -/
def layoutsFrom (address : Nat) : List Statement → List Layout
  | [] => []
  | s :: rest => s.layouts address ++ layoutsFrom (address + s.size) rest

/-- A rule says what a name stands for, given the labels before and behind the
place where it is mentioned. -/
abbrev NameRule := List Declaration → List Declaration → String → Option Nat

/-- The addresses that a rule gives to names, as the machine holds them. -/
def NameRule.address? (rule : NameRule) (before after : List Declaration) (name : String) :
    Option UInt32 :=
  (rule before after name).map UInt32.ofNat

/-- The image of some statements under a rule.  The first one starts at an
address and has some labels before it. -/
def imageFrom? (rule : NameRule) (before : List Declaration) (address : Nat) :
    List Statement → Option (List UInt8)
  | [] => some []
  | s :: rest =>
    let here := s.declarations address
    let after := declarationsFrom (address + s.size) rest
    joined? (s.bytes? (rule.address? before (here ++ after)))
      (imageFrom? rule (before ++ here) (address + s.size) rest)

@[simp]
theorem sizeSum_nil : sizeSum [] = 0 := rfl

@[simp]
theorem sizeSum_cons (s : Statement) (rest : List Statement) :
    sizeSum (s :: rest) = s.size + sizeSum rest := by
  simp [sizeSum]

@[simp]
theorem sizeSum_append (xs ys : List Statement) : sizeSum (xs ++ ys) = sizeSum xs + sizeSum ys := by
  simp [sizeSum]

theorem declarationsFrom_append (address : Nat) (xs ys : List Statement) :
    declarationsFrom address (xs ++ ys) =
      declarationsFrom address xs ++ declarationsFrom (address + sizeSum xs) ys := by
  induction xs generalizing address with
  | nil => simp [declarationsFrom]
  | cons s rest ih =>
    simp only [List.cons_append, declarationsFrom, ih, sizeSum_cons, List.append_assoc,
      Nat.add_assoc]

theorem layoutsFrom_append (address : Nat) (xs ys : List Statement) :
    layoutsFrom address (xs ++ ys) =
      layoutsFrom address xs ++ layoutsFrom (address + sizeSum xs) ys := by
  induction xs generalizing address with
  | nil => simp [layoutsFrom]
  | cons s rest ih =>
    simp only [List.cons_append, layoutsFrom, ih, sizeSum_cons, List.append_assoc, Nat.add_assoc]

theorem length_of_imageFrom? {rule : NameRule} {before : List Declaration} {address : Nat}
    {ss : List Statement} {bytes : List UInt8}
    (h : imageFrom? rule before address ss = some bytes) : bytes.length = sizeSum ss := by
  induction ss generalizing before address bytes with
  | nil => cases h; rfl
  | cons s rest ih =>
    obtain ⟨b, bs, hb, hbs, rfl⟩ := joined?_eq_some h
    rw [List.length_append, s.length_of_bytes? hb, ih hbs, sizeSum_cons]

end RegAsm
