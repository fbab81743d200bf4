import Isa16.Encoding.Operand

/-!
# Operations

* `Operation`: a mnemonic, the fixed bits of the encoding and the operands in order. The type
  holds only sound encodings: no two operands share a bit, some bit is fixed, and the opcode sets
  fixed bits only.
* `Operation.make`: builds one from its parts, or says what is wrong with them.
* `Operation.decode`, `Operation.encode`: operand values out of a word and back.
* `OperationSpec`: an operation as an architecture's table writes it.
-/

namespace Isa16

/-- A nonempty string of capital letters. -/
def isMnemonic (s : String) : Bool :=
  s ≠ "" && s.toList.all Char.isUpper

/-- The bits that at least two of the masks have. -/
def sharedBits (masks : List Word) : Word :=
  (masks.foldl (fun (seen, shared) m => (seen ||| m, shared ||| (seen &&& m))) (0, 0)).2

/-- The bits that an odd number of the masks lack; for disjoint masks, those that none has. -/
def remainingBits (masks : List Word) : Word :=
  masks.foldl (· ^^^ ·) (BitVec.allOnes 16)

/-- The masks of the operands, in order. -/
def operandMasks (operands : List Operand) : List Word :=
  operands.map (·.field.mask)

/-- An instruction encoding. -/
structure Operation where
  mnemonic : String
  opcode : Word
  operands : List Operand
  isMnemonic_mnemonic : isMnemonic mnemonic
  sharedBits_eq : sharedBits (operandMasks operands) = 0
  remainingBits_ne : remainingBits (operandMasks operands) ≠ 0
  opcode_aligned : opcode &&& ~~~remainingBits (operandMasks operands) = 0
  deriving DecidableEq

/-- An operation whose parts have not been checked. -/
structure OperationSpec where
  mnemonic : String
  opcode : Word
  operands : List OperandSpec
  deriving DecidableEq

namespace Operation

/-- The operation with these parts. Of several faults the first in this order is reported: the
mnemonic, shared operand bits, no fixed bit, opcode bits inside operands. -/
def make (mnemonic : String) (opcode : Word) (operands : List Operand) :
    Except EncodingError Operation :=
  if h₁ : isMnemonic mnemonic then
    if h₂ : sharedBits (operandMasks operands) = 0 then
      if h₃ : remainingBits (operandMasks operands) ≠ 0 then
        if h₄ : opcode &&& ~~~remainingBits (operandMasks operands) = 0 then
          .ok ⟨mnemonic, opcode, operands, h₁, h₂, h₃, h₄⟩
        else
          .error (.opcodeInOperands mnemonic opcode
            (opcode &&& ~~~remainingBits (operandMasks operands)))
      else .error (.noFixedBits mnemonic)
    else .error (.sharedBits mnemonic (sharedBits (operandMasks operands)))
  else .error (.badMnemonic mnemonic)

/-- The operation of a specification; operand masks are checked first, in order. -/
def ofSpec (spec : OperationSpec) : Except EncodingError Operation := do
  make spec.mnemonic spec.opcode (← spec.operands.mapM Operand.ofSpec)

/-- The fixed bits. -/
def fixed (op : Operation) : Field :=
  ⟨remainingBits (operandMasks op.operands)⟩

/-- The span of the fixed bits; of two matching operations the one with more wins. -/
def specificity (op : Operation) : Nat :=
  op.fixed.width

/-- The word has the opcode in the fixed bits. -/
def matchesWord (op : Operation) (word : Word) : Bool :=
  word &&& op.fixed.mask = op.opcode

/-- The operand values of a word, in order. -/
def decode (op : Operation) (word : Word) : List Word :=
  op.operands.map (·.decode word)

/-- The word with these operand values; bits outside the fields are dropped. -/
def encode (op : Operation) (values : List Word) : Except EncodingError Word :=
  if values.length = op.operands.length then
    .ok ((op.operands.zip values).foldl
      (fun word (operand, value) => operand.field.set value word) op.opcode)
  else
    .error (.valueCount op.mnemonic op.operands.length values.length)

/-- The first operand that does not accept its value, with its position. -/
def firstInexact? : Nat → List (Operand × Word) → Option (Nat × Word × Word)
  | _, [] => none
  | index, (operand, value) :: rest =>
    match operand.use.exact with
    | some expected =>
      if expected = value then firstInexact? (index + 1) rest else some (index, expected, value)
    | none => firstInexact? (index + 1) rest

/-- Every operand accepts its value. Values without an operand are ignored. -/
def check (op : Operation) (values : List Word) : Except EncodingError Unit :=
  match firstInexact? 0 (op.operands.zip values) with
  | some (index, expected, given) => .error (.inexactValue op.mnemonic index expected given)
  | none => .ok ()

/-- The mnemonic, then opcode and fixed bits in hexadecimal. -/
def text (op : Operation) : String :=
  s!"{op.mnemonic} 0x{Hex.lower 4 op.opcode.toNat}/{op.fixed.text}"

end Operation

end Isa16
