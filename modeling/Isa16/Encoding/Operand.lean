import Isa16.Encoding.Field

/-!
# Operands

* `Operand`: a field of the word, what its value denotes, and how the operation uses it.
* `OperandSpec`, `Operand.ofSpec`: an operand as an architecture's table writes it, with a mask
  that still has to be checked.
-/

namespace Isa16

/-- What the value of an operand denotes. -/
inductive OperandKind
  | constant
  | register
  | romAddress
  | ramAddress
  deriving DecidableEq

/-- The value is an address. -/
def OperandKind.isAddress : OperandKind → Bool
  | romAddress | ramAddress => true
  | constant | register => false

/-- How an operation uses an operand. -/
structure OperandUse where
  /-- The operation writes through the operand. -/
  destination : Bool := false
  /-- The operand names memory reached through it. -/
  indirect : Bool := false
  /-- The only value for which the encoding has a meaning. -/
  exact : Option Word := none
  deriving DecidableEq

/-- An operand of an operation. -/
structure Operand where
  field : Field
  kind : OperandKind
  use : OperandUse := {}
  deriving DecidableEq

/-- An operand whose mask has not been checked. -/
structure OperandSpec where
  mask : UInt32
  kind : OperandKind
  use : OperandUse := {}
  deriving DecidableEq

namespace Operand

/-- The operand of a specification, if its mask is one of an instruction word. -/
def ofSpec (spec : OperandSpec) : Except EncodingError Operand :=
  (Field.ofInt64 (Int64.ofNat spec.mask.toNat)).map fun field => ⟨field, spec.kind, spec.use⟩

/-- The operand's value in `word`. -/
def decode (o : Operand) (word : Word) : Word :=
  o.field.get word

/-- The word that holds only the operand's value; bits outside the field are dropped. -/
def encode (o : Operand) (value : Word) : Word :=
  o.field.set value 0

/-- The value is one for which the encoding has a meaning. -/
def accepts (o : Operand) (value : Word) : Bool :=
  o.use.exact.all (· = value)

end Operand

end Isa16
