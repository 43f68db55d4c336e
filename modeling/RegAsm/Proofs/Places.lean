/-
RegAsm.Proofs.Places — where a statement is written does not matter.

Statements carry the places where they and their operands are written, for the
messages about them.  Neither the size nor the labels nor the bytes of a program
depend on these places.  To leave them out is a relabeling that keeps all names.

1. Leaving out the places.
2. Instructions.
3. Statements.
4. Programs.
-/
import RegAsm.Proofs.Reading
import RegAsm.Proofs.Relabeling

namespace RegAsm

open Machine Encoding

/-! ## 1. Leaving out the places -/

/-- Every label under its own name, and everything nowhere. -/
def Relabeling.unplacing : Relabeling :=
  ⟨id, fun _ => .nowhere, Function.injective_id, fun _ => rfl⟩

@[simp]
theorem OperandForm.relabel_unplacing (form : OperandForm) : form.relabel .unplacing = form := by
  cases form <;> rfl

@[simp]
theorem EncodingFault.relabel_unplacing (f : EncodingFault) : f.relabel .unplacing = f := by
  cases f <;> simp [relabel]

theorem Operand.relabel_unplacing : Operand.relabel .unplacing = Operand.unplaced := by
  funext o
  rw [relabel, OperandForm.relabel_unplacing]
  rfl

theorem Statement.relabel_unplacing : Statement.relabel .unplacing = Statement.unplaced := by
  funext s
  induction s with
  | times count body pos ih =>
    rw [relabel, unplaced, ih]
    rfl
  | instruction m operands pos | data items pos | other tag m operands pos =>
    rw [relabel, unplaced, Operand.relabel_unplacing]
    rfl
  | _ => rfl

theorem mapError_relabel_unplacing {α : Type} (e : Except EncodingFault α) :
    e.mapError (EncodingFault.relabel .unplacing) = e := by
  cases e with
  | ok a => rfl
  | error f => exact congrArg Except.error f.relabel_unplacing

/-! ## 2. Instructions -/

/-- The field without the place where its label is mentioned. -/
def Field.unplaced : Field → Field
  | .address label _ => .address label .nowhere
  | f => f

@[simp]
theorem Field.width_unplaced (f : Field) : f.unplaced.width = f.width := by
  cases f <;> rfl

@[simp]
theorem Field.bytes?_unplaced (address? : String → Option UInt32) (f : Field) :
    f.unplaced.bytes? address? = f.bytes? address? := by
  cases f <;> rfl

theorem fieldBytes?_unplaced (address? : String → Option UInt32) (fields : List Field) :
    fieldBytes? address? (fields.map Field.unplaced) = fieldBytes? address? fields := by
  induction fields with
  | nil => rfl
  | cons f rest ih => rw [List.map_cons, fieldBytes?, Field.bytes?_unplaced, ih, fieldBytes?]

theorem Field.relabel_unplacing : Field.relabel .unplacing = Field.unplaced := by
  funext f
  cases f <;> rfl

namespace Encoding

/-- The machine form without the places of the labels it mentions. -/
def unplaced (e : Encoding) : Encoding := { e with fields := e.fields.map Field.unplaced }

@[simp]
theorem widths_unplaced (e : Encoding) : e.unplaced.widths = e.widths := by
  simp [widths, unplaced, Function.comp_def]

@[simp]
theorem length_unplaced (e : Encoding) : e.unplaced.length = e.length := by
  rw [length, widths_unplaced]
  rfl

@[simp]
theorem layout_unplaced (address : Nat) (e : Encoding) :
    e.unplaced.layout address = e.layout address := by
  simp [layout]

@[simp]
theorem bytes?_unplaced (address? : String → Option UInt32) (e : Encoding) :
    e.unplaced.bytes? address? = e.bytes? address? := by
  rw [bytes?, unplaced, fieldBytes?_unplaced]
  rfl

theorem relabel_unplacing : Encoding.relabel .unplacing = Encoding.unplaced := by
  funext e
  rw [relabel, unplaced, Field.relabel_unplacing]

theorem of_unplaced (m : Mnemonic) (operands : List Operand) :
    Encoding.of m (operands.map Operand.unplaced) = (Encoding.of m operands).map unplaced := by
  rw [← Operand.relabel_unplacing, of_relabel, mapError_relabel_unplacing, relabel_unplacing]

end Encoding

/-! ## 3. Statements -/

theorem dataBytes_unplaced (items : List Operand) :
    dataBytes (items.map Operand.unplaced) = dataBytes items := by
  rw [← Operand.relabel_unplacing, dataBytes_relabel, mapError_relabel_unplacing]

namespace Statement

@[simp]
theorem size_unplaced (s : Statement) : s.unplaced.size = s.size := by
  cases s with
  | instruction m operands pos =>
    rw [unplaced, size, of_unplaced, size]
    cases Encoding.of m operands <;> simp [Except.map]
  | data items pos => rw [unplaced, size, dataBytes_unplaced, size]
  | _ => rfl

@[simp]
theorem isEncodable_unplaced (s : Statement) : s.unplaced.isEncodable = s.isEncodable := by
  cases s with
  | instruction m operands pos =>
    rw [unplaced, isEncodable, of_unplaced, isEncodable]
    cases Encoding.of m operands <;> rfl
  | data items pos => rw [unplaced, isEncodable, dataBytes_unplaced, isEncodable]
  | _ => rfl

@[simp]
theorem declarations_unplaced (address : Nat) (s : Statement) :
    s.unplaced.declarations address = s.declarations address := by
  cases s <;> rfl

@[simp]
theorem layouts_unplaced (address : Nat) (s : Statement) :
    s.unplaced.layouts address = s.layouts address := by
  cases s with
  | instruction m operands pos =>
    rw [unplaced, layouts, of_unplaced, layouts]
    cases Encoding.of m operands <;> simp [Except.map]
  | _ => rfl

@[simp]
theorem bytes?_unplaced (address? : String → Option UInt32) (s : Statement) :
    s.unplaced.bytes? address? = s.bytes? address? := by
  cases s with
  | instruction m operands pos =>
    rw [unplaced, bytes?, of_unplaced, bytes?]
    cases Encoding.of m operands <;> simp [Except.map, Except.toOption]
  | data items pos => rw [unplaced, bytes?, dataBytes_unplaced, bytes?]
  | _ => rfl

theorem unrolled_unplaced (s : Statement) :
    s.unplaced.unrolled = s.unrolled.map Statement.unplaced := by
  induction s with
  | times count body pos ih => simp [unplaced, unrolled, ih, List.map_flatten]
  | _ => rfl

end Statement

/-! ## 4. Programs -/

theorem unroll_unplaced (program : List Statement) :
    unroll (program.map Statement.unplaced) = (unroll program).map Statement.unplaced := by
  induction program with
  | nil => rfl
  | cons s rest ih =>
    simp only [unroll, List.map_cons, List.flatMap_cons, List.map_append] at ih ⊢
    rw [ih, Statement.unrolled_unplaced]

theorem sizeSum_unplaced (ss : List Statement) :
    sizeSum (ss.map Statement.unplaced) = sizeSum ss := by
  simp [sizeSum, Function.comp_def]

theorem declarationsFrom_unplaced (address : Nat) (ss : List Statement) :
    declarationsFrom address (ss.map Statement.unplaced) = declarationsFrom address ss := by
  induction ss generalizing address with
  | nil => rfl
  | cons s rest ih => simp [declarationsFrom, ih]

theorem layoutsFrom_unplaced (address : Nat) (ss : List Statement) :
    layoutsFrom address (ss.map Statement.unplaced) = layoutsFrom address ss := by
  induction ss generalizing address with
  | nil => rfl
  | cons s rest ih => simp [layoutsFrom, ih]

theorem imageFrom?_unplaced (rule : NameRule) (before : List Declaration) (address : Nat)
    (ss : List Statement) :
    imageFrom? rule before address (ss.map Statement.unplaced) =
      imageFrom? rule before address ss := by
  induction ss generalizing before address with
  | nil => rfl
  | cons s rest ih => simp [imageFrom?, ih, declarationsFrom_unplaced]

end RegAsm
