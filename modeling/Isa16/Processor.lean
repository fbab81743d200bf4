import Isa16.Decoding.Instruction
import Isa16.Decoding.Memo
import Isa16.Program.Resolve

/-!
# Processors

* `Processor`: an instruction set with a routine for each operation that has one, and a memo of
  the words seen.
* `Processor.decode?`, `Processor.decode`: the instruction and routine of a word, without and with
  the memo.
* `Processor.execute`: runs a word on a machine state.
-/

namespace Isa16

/-- An instruction with the routine of its operation, if there is one. -/
structure Decoded (σ : Type) where
  instruction : Instruction
  routine : Option (Routine σ)

/-- What became of a word. -/
inductive Outcome
  | executed (word : Word) (mnemonic : String)
  /-- No operation matches the word. -/
  | illegal (word : Word)
  /-- The operation has no routine. -/
  | unimplemented (word : Word) (mnemonic : String)
  deriving DecidableEq

/-- Why a processor cannot be made, or a word cannot be executed. -/
inductive ProcessorError
  | compile (e : CompileError)
  | run (word : Word) (e : RunError)

/-- The wording of a fault. -/
def ProcessorError.message : ProcessorError → String
  | compile e => s!"semantics error: {e.message}"
  | run word e => s!"execution of 0x{Hex.upper 4 word.toNat} failed: {e.message}"

/-- The decode and execute stage of a machine. -/
structure Processor (σ : Type) where
  instructions : InstructionSet
  /-- One for each operation, in order. -/
  routines : List (Option (Routine σ))
  memo : Memo (Decoded σ)

/-- What became of a word, and what is left behind. -/
structure Execution (σ : Type) where
  outcome : Except ProcessorError Outcome
  processor : Processor σ
  state : σ

namespace Processor

variable {σ : Type}

/-- The routine of an optional program. -/
def compileOptional : Option (Program σ) → Except ProcessorError (Option (Routine σ))
  | none => .ok none
  | some program => (program.compile.map some).mapError .compile

/-- The processor of an instruction set, with the programs that `programOf` gives for its
operations and their positions. The first program that cannot be made ready is reported. -/
def make (instructions : InstructionSet) (programOf : Candidate → Option (Program σ)) :
    Except ProcessorError (Processor σ) := do
  let routines ← instructions.candidates.mapM fun c => compileOptional (programOf c)
  return ⟨instructions, routines, ∅⟩

/-- The routine of the operation at a position. -/
def routine? (p : Processor σ) (index : Nat) : Option (Routine σ) :=
  p.routines[index]?.join

/-- The instruction and routine of a word, found without the memo. -/
def decode? (p : Processor σ) (word : Word) : Option (Decoded σ) :=
  (p.instructions.lookup? word).map fun c => ⟨⟨word, c.operation⟩, p.routine? c.index⟩

/-- The instruction and routine of a word. What is found is remembered. -/
def decode (p : Processor σ) (word : Word) : Option (Decoded σ) × Processor σ :=
  match p.memo.get? word with
  | some decoded => (some decoded, p)
  | none =>
    match p.decode? word with
    | some decoded => (some decoded, { p with memo := p.memo.insert word decoded })
    | none => (none, p)

/-- Runs a word on a machine state. -/
def execute [MachineState σ] (p : Processor σ) (word : Word) (state : σ) : Execution σ :=
  match p.decode word with
  | (none, p) => ⟨.ok (.illegal word), p, state⟩
  | (some decoded, p) =>
    let mnemonic := decoded.instruction.operation.mnemonic
    match decoded.routine with
    | none => ⟨.ok (.unimplemented word mnemonic), p, state⟩
    | some routine =>
      let completion := routine.call state (decoded.instruction.values.map .ofWord)
      match completion.result with
      | .ok () => ⟨.ok (.executed word mnemonic), p, completion.state⟩
      | .error e => ⟨.error (.run word e), p, completion.state⟩

/-- Forgets a word, for instance because the program memory that holds it was written. -/
def forget (p : Processor σ) (word : Word) : Processor σ :=
  { p with memo := p.memo.erase word }

/-- Forgets every word. -/
def forgetAll (p : Processor σ) : Processor σ :=
  { p with memo := ∅ }

end Processor

end Isa16
