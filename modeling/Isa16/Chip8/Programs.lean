import Isa16.Chip8.Table
import Isa16.Processor
import Isa16.Program.Snippet
import Isa16.Program.WordLibrary

/-!
# What CHIP-8 operations do

Registers, arithmetic and control flow; operations on the display, the keypad and the memory have
no program. Fetching an instruction advances `pc` past it before it is run, so a skip adds two and
a jump overwrites `pc`.

* `Chip8.initial`: the machine state at the start.
* `Chip8.library`: word arithmetic and the random numbers.
* `Chip8.instructions?`, `Chip8.program?`: the program of an operation.
* `Chip8.processor`: the machine.
-/

namespace Isa16.Chip8

open Snippet

/-- The address of the first instruction. -/
def programStart : Nat := 0x200

/-- The bytes of one digit of the font. -/
def glyphBytes : Int64 := 5

/-- The machine state at the start: registers `V`, the stack, `I`, `pc`, `sp`, the timers and the
seed of the random numbers. -/
def initial : Cells :=
  (∅ : Cells)
    |>.setZeros "V" 16
    |>.setZeros "stack" 16
    |>.setScalar "I" (.int 0)
    |>.setScalar "pc" (.ofNat programStart)
    |>.setScalar "sp" (.int 0)
    |>.setScalar "DT" (.int 0)
    |>.setScalar "ST" (.int 0)
    |>.setScalar "seed" (.int 0xace1)

/-- The step of the random numbers, an exclusive-or shift register of sixteen bits. -/
def nextSeed (seed : Word) : Word :=
  let a := seed ^^^ (seed <<< 7)
  let b := a ^^^ (a >>> 9)
  b ^^^ (b <<< 8)

/-- Steps the seed and returns its low byte. -/
def random {σ : Type} [MachineState σ] : HostFunction σ := fun _ => do
  let old ← MachineState.load [.name "seed"]
  let n ← Effect.ofExcept old.number
  let seed := nextSeed (BitVec.ofInt 16 n.toInt)
  MachineState.store [.name "seed"] (.ofWord seed)
  return .ofWord (seed &&& 0x00ff)

/-- Word arithmetic and the random numbers. -/
def library {σ : Type} [MachineState σ] : Library σ :=
  arithmeticLibrary.insert "random" (.function random)

/-! ## Texts -/

/-- A part of the machine state. -/
def part (name : String) : String :=
  path contextRoot [name]

/-- An operand value. -/
def operand (index : Nat) : String :=
  path operandsRoot [toString index]

/-- A register. -/
def register (index : String) : String :=
  element (part "V") index

/-- The register that the first operand names. -/
def x : String :=
  register (operand 0)

/-- The register that the second operand names. -/
def y : String :=
  register (operand 1)

/-- The register of the flag. -/
def flagRegister : String :=
  path contextRoot ["V", "15"]

/-- A call of a library function. -/
def callEntry (name : String) (args : List String) : String :=
  application (entry name) args

/-- Skips the next instruction if the condition holds. -/
def skipWhen (condition : String) : String :=
  let skip := assignment (part "pc") (callEntry "add16" [part "pc", literal (.int 2)])
  s!"if ({condition}) " ++ "\x7b " ++ skip ++ " \x7d"

/-- Writes the first register and the flag; the flag is worked out first, so that both come from
the registers as they were. -/
def withFlag (flag result : String) : List String :=
  [assignment "flag" flag, assignment x result, assignment flagRegister "flag"]

/-- The instructions of an operation, by its opcode. -/
def instructions? (opcode : Word) : Option (List String) :=
  match opcode.toNat with
  | 0x00ee =>
    some [assignment (part "sp") (part "sp" ++ " - 1"),
      assignment (part "pc") (element (part "stack") (part "sp"))]
  | 0x1000 => some [assignment (part "pc") (operand 0)]
  | 0x2000 =>
    some [assignment (element (part "stack") (part "sp")) (part "pc"),
      assignment (part "sp") (part "sp" ++ " + 1"), assignment (part "pc") (operand 0)]
  | 0x3000 => some [skipWhen s!"{x} == {operand 1}"]
  | 0x4000 => some [skipWhen s!"{x} != {operand 1}"]
  | 0x5000 => some [skipWhen s!"{x} == {y}"]
  | 0x9000 => some [skipWhen s!"{x} != {y}"]
  | 0x6000 => some [assignment x (operand 1)]
  | 0x7000 => some [assignment x (callEntry "add8" [x, operand 1])]
  | 0x8000 => some [assignment x y]
  | 0x8001 => some [assignment x s!"{x} | {y}"]
  | 0x8002 => some [assignment x s!"{x} & {y}"]
  | 0x8003 => some [assignment x s!"{x} ^ {y}"]
  | 0x8004 => some (withFlag (callEntry "carry8" [x, y]) (callEntry "add8" [x, y]))
  | 0x8005 => some (withFlag ("1 - " ++ callEntry "borrow8" [x, y]) (callEntry "sub8" [x, y]))
  | 0x8006 => some (withFlag s!"{x} & 1" (callEntry "shr8" [x, literal (.int 1)]))
  | 0x8007 => some (withFlag ("1 - " ++ callEntry "borrow8" [y, x]) (callEntry "sub8" [y, x]))
  | 0x800e =>
    some (withFlag (callEntry "shr8" [x, literal (.int 7)])
      (callEntry "shl8" [x, literal (.int 1)]))
  | 0xa000 => some [assignment (part "I") (operand 0)]
  | 0xb000 =>
    some [assignment (part "pc") (callEntry "add16" [operand 0, register (literal (.int 0))])]
  | 0xc000 => some [assignment x (callEntry "random" [] ++ " & " ++ operand 1)]
  | 0xf007 => some [assignment x (part "DT")]
  | 0xf015 => some [assignment (part "DT") x]
  | 0xf018 => some [assignment (part "ST") x]
  | 0xf01e => some [assignment (part "I") (callEntry "add16" [part "I", x])]
  | 0xf029 => some [assignment (part "I") s!"{x} * {literal (.int glyphBytes)}"]
  | _ => none

/-- The program of an operation, if it has one. -/
def program? {σ : Type} [MachineState σ] (op : Operation) : Option (Program σ) :=
  (instructions? op.opcode).map fun instructions =>
    ⟨s!"{op.mnemonic} 0x{Hex.upper 4 op.opcode.toNat}", ["flag"], library, instructions⟩

/-- The CHIP-8 machine. -/
def processor {σ : Type} [MachineState σ] : Except ProcessorError (Processor σ) :=
  Processor.make instructionSet fun c => program? c.operation

end Isa16.Chip8
