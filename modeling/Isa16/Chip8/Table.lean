import Isa16.Decoding.InstructionSet

/-!
# The CHIP-8 operations

* `Chip8.operations`: the 35 operations in the usual order.
* `Chip8.instructionSet`: the instruction set that they make.
-/

namespace Isa16.Chip8

/-- The operation with these parts, which have to be sound. -/
def sound (mnemonic : String) (opcode : Word) (operands : List Operand)
    (h : (Operation.make mnemonic opcode operands).isOk := by decide) : Operation :=
  match Operation.make mnemonic opcode operands, h with
  | .ok op, _ => op

/-- The register in the second digit. -/
def vx : Operand :=
  ⟨⟨0x0f00⟩, .register, {}⟩

/-- The register in the third digit. -/
def vy : Operand :=
  ⟨⟨0x00f0⟩, .register, {}⟩

/-- The byte in the last two digits. -/
def byte : Operand :=
  ⟨⟨0x00ff⟩, .constant, {}⟩

/-- The digit at the end. -/
def nibble : Operand :=
  ⟨⟨0x000f⟩, .constant, {}⟩

/-- A program address in the last three digits. -/
def address : Operand :=
  ⟨⟨0x0fff⟩, .romAddress, {}⟩

/-- A data address in the last three digits. -/
def dataAddress : Operand :=
  ⟨⟨0x0fff⟩, .ramAddress, {}⟩

/-- The register in the second digit, as the one that is written. -/
def target : Operand :=
  { vx with use := { destination := true } }

/-- The operations, in the order of the opcode table. -/
def operations : List Operation :=
  [sound "SYS" 0x0000 [address],
    sound "CLS" 0x00e0 [],
    sound "RET" 0x00ee [],
    sound "JP" 0x1000 [address],
    sound "CALL" 0x2000 [address],
    sound "SE" 0x3000 [vx, byte],
    sound "SNE" 0x4000 [vx, byte],
    sound "SE" 0x5000 [vx, vy],
    sound "LD" 0x6000 [target, byte],
    sound "ADD" 0x7000 [target, byte],
    sound "LD" 0x8000 [target, vy],
    sound "OR" 0x8001 [target, vy],
    sound "AND" 0x8002 [target, vy],
    sound "XOR" 0x8003 [target, vy],
    sound "ADD" 0x8004 [target, vy],
    sound "SUB" 0x8005 [target, vy],
    sound "SHR" 0x8006 [target, vy],
    sound "SUBN" 0x8007 [target, vy],
    sound "SHL" 0x800e [target, vy],
    sound "SNE" 0x9000 [vx, vy],
    sound "LD" 0xa000 [dataAddress],
    sound "JP" 0xb000 [address],
    sound "RND" 0xc000 [target, byte],
    sound "DRW" 0xd000 [vx, vy, nibble],
    sound "SKP" 0xe09e [vx],
    sound "SKNP" 0xe0a1 [vx],
    sound "LD" 0xf007 [target],
    sound "LD" 0xf00a [target],
    sound "LD" 0xf015 [vx],
    sound "LD" 0xf018 [vx],
    sound "ADD" 0xf01e [vx],
    sound "LD" 0xf029 [vx],
    sound "LD" 0xf033 [vx],
    sound "LD" 0xf055 [vx],
    sound "LD" 0xf065 [target]]

/-- The CHIP-8 instruction set. -/
def instructionSet : InstructionSet :=
  InstructionSet.ofList operations

end Isa16.Chip8
