import Isa16.Decoding.InstructionSet

/-!
# Decoded instructions

* `Instruction`: a word with the operation it stands for.
* `Instruction.text`: mnemonic and operands as written in assembly.
-/

namespace Isa16

/-- An operand's value as written in assembly: registers as `V` and a hexadecimal number,
constants with at least two digits, addresses with at least three. -/
def Operand.valueText (o : Operand) (value : Word) : String :=
  let bare :=
    match o.kind with
    | .register => s!"V{Hex.upper 1 value.toNat}"
    | .constant => s!"0x{Hex.upper 2 value.toNat}"
    | .romAddress | .ramAddress => s!"0x{Hex.upper 3 value.toNat}"
  if o.use.indirect then s!"[{bare}]" else bare

/-- A word read as an instruction of an operation. -/
structure Instruction where
  word : Word
  operation : Operation
  deriving DecidableEq

namespace Instruction

/-- The operand values, in order. -/
def values (i : Instruction) : List Word :=
  i.operation.decode i.word

/-- The operands as written in assembly. -/
def operandTexts (i : Instruction) : List String :=
  (i.operation.operands.zip i.values).map fun (operand, value) => operand.valueText value

/-- The instruction as written in assembly. -/
def text (i : Instruction) : String :=
  match i.operandTexts with
  | [] => i.operation.mnemonic
  | texts => i.operation.mnemonic ++ " " ++ ", ".intercalate texts

end Instruction

namespace InstructionSet

/-- The instruction that a word stands for. -/
def decode? (s : InstructionSet) (word : Word) : Option Instruction :=
  (s.lookup? word).map fun c => ⟨word, c.operation⟩

end InstructionSet

end Isa16
