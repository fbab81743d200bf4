import Isa16.Bits
import Isa16.Text.Hex

/-!
# Faults of an instruction encoding

* `EncodingError`: what can be wrong with a description of instructions, or with the operand
  values given to one.
* `EncodingError.message`: the wording.
-/

namespace Isa16

/-- Why an encoding, or a value put into one, was refused. -/
inductive EncodingError
  /-- The mnemonic is not a nonempty string of capital letters. -/
  | badMnemonic (mnemonic : String)
  /-- The number is no mask of an instruction word. -/
  | wideMask (mask : Int64)
  /-- The value has bits outside the field. -/
  | wideValue (value mask : Word)
  /-- Two operands claim the same bits. -/
  | sharedBits (mnemonic : String) (bits : Word)
  /-- The operands leave no fixed bit. -/
  | noFixedBits (mnemonic : String)
  /-- The opcode sets bits that belong to operands. -/
  | opcodeInOperands (mnemonic : String) (opcode bits : Word)
  /-- Too few or too many operand values were given. -/
  | valueCount (mnemonic : String) (expected given : Nat)
  /-- The operand at `index` admits only one value, and another was given. -/
  | inexactValue (mnemonic : String) (index : Nat) (expected given : Word)
  deriving DecidableEq

namespace EncodingError

/-- The wording of an encoding fault. -/
def message : EncodingError → String
  | badMnemonic mnemonic => s!"mnemonic '{mnemonic}' must consist of uppercase letters only"
  | wideMask mask =>
    s!"mask 0x{Hex.lower 1 mask.toBitVec.toNat} exceeds the 16-bit instruction word"
  | wideValue value mask =>
    s!"value 0x{Hex.lower 1 value.toNat} does not fit the field described by mask " ++
      s!"0x{Hex.lower 4 mask.toNat}"
  | sharedBits mnemonic bits =>
    s!"operation '{mnemonic}' declares operands sharing bits 0x{Hex.lower 4 bits.toNat}"
  | noFixedBits mnemonic => s!"operation '{mnemonic}' has no fixed bits left after its operands"
  | opcodeInOperands mnemonic opcode bits =>
    s!"opcode 0x{Hex.lower 4 opcode.toNat} of '{mnemonic}' sets operand bits " ++
      s!"0x{Hex.lower 4 bits.toNat}"
  | valueCount mnemonic expected given =>
    s!"operation '{mnemonic}' expects {expected} operand value(s), got {given}"
  | inexactValue mnemonic index expected given =>
    s!"operand {index} of '{mnemonic}' must equal 0x{Hex.lower 1 expected.toNat}, " ++
      s!"got 0x{Hex.lower 1 given.toNat}"

end EncodingError

end Isa16
