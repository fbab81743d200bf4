import Isa16.Proofs.Chip8.Lookup
import Isa16.Proofs.Chip8.Registers
import Isa16.Proofs.Processor.Requests

/-!
# The CHIP-8 machine on its registers

* `exists_processor`: the machine can be made.
* `Registers.execute`, `Registers.run`: what a word, and words one after another, do to the
  registers.
* `Processor.executeAll`: words executed one after another by a processor.
* **`execute_onto`**: the machine does to the machine state what `Registers.execute` does to the
  registers, whatever its memo holds.
* `run_onto`: so do words one after another.
-/

namespace Isa16

/-- What became of words, and what they left. -/
structure Run (σ : Type) where
  outcomes : List (Except ProcessorError Outcome)
  processor : Processor σ
  state : σ

/-- Executes words one after another, failed ones included. -/
def Processor.executeAll {σ : Type} [MachineState σ] (p : Processor σ) (state : σ) :
    List Word → Run σ
  | [] => ⟨[], p, state⟩
  | word :: words =>
    let execution := p.execute word state
    let run := execution.processor.executeAll execution.state words
    ⟨execution.outcome :: run.outcomes, run.processor, run.state⟩

namespace Chip8

open Processor

/-- **The machine can be made**: every program compiles. -/
theorem exists_processor {σ : Type} [MachineState σ] :
    ∃ fresh : Processor σ, processor = .ok fresh :=
  exists_make fun _ _ _ hp =>
    have ⟨_, _, hcompile⟩ := compile_program? hp
    ⟨_, hcompile⟩

theorem decode?_processor {σ : Type} [MachineState σ] {fresh : Processor σ}
    (h : processor = .ok fresh) {word : Word} {c : Candidate}
    (hc : instructionSet.lookup? word = some c) :
    ∃ label, fresh.decode? word = some ⟨⟨word, c.operation⟩,
      (commands? c.operation.opcode).map fun cs => ⟨label, 1, cs.map Command.action⟩⟩ := by
  rcases decode?_make h word with ⟨hnone, -⟩ | ⟨c', routine, hc', -, hroutine, hdecode⟩
  · rw [hnone] at hc
    cases hc
  · rw [hc] at hc'
    cases hc'
    rw [hdecode]
    cases hp : (program? c.operation : Option (Program σ)) with
    | none =>
      rw [hp] at hroutine
      cases hroutine
      rw [program?, instructions?_eq, Option.map_map, Option.map_eq_none_iff] at hp
      rw [hp]
      exact ⟨"", rfl⟩
    | some p =>
      obtain ⟨cs, hcs, hcompile⟩ := compile_program? hp
      rw [hp, compileOptional, hcompile] at hroutine
      cases hroutine
      exact ⟨p.name, by rw [hcs]; rfl⟩

namespace Registers

/-- What becomes of a word that ends so. -/
def finish (word : Word) (mnemonic : String) :
    EStateM.Result RunError Registers Unit → Except ProcessorError Outcome × Registers
  | .ok () r => (.ok (.executed word mnemonic), r)
  | .error e r => (.error (.run word e), r)

/-- What becomes of a word, and the registers that it leaves. -/
def execute (r : Registers) (word : Word) : Except ProcessorError Outcome × Registers :=
  match instructionSet.lookup? word with
  | none => (.ok (.illegal word), r)
  | some c =>
    match commands? c.operation.opcode with
    | none => (.ok (.unimplemented word c.operation.mnemonic), r)
    | some _ => finish word c.operation.mnemonic (r.step c.operation.opcode word)

/-- What becomes of words one after another, and the registers that they leave. -/
def run (r : Registers) : List Word → List (Except ProcessorError Outcome) × Registers
  | [] => ([], r)
  | word :: words =>
    let rest := (r.execute word).2.run words
    ((r.execute word).1 :: rest.1, rest.2)

end Registers

section

variable {fresh p : Processor Cells} {seen : Word → Prop} {r : Registers} {c : Cells}

theorem carryOut_onto (h : processor = .ok fresh) (word : Word) (r : Registers) (c : Cells) :
    carryOut word (fresh.decode? word) (r.onto c) =
      ((r.execute word).1, (r.execute word).2.onto c) := by
  unfold Registers.execute
  cases hl : instructionSet.lookup? word with
  | none =>
    rcases decode?_make h word with ⟨-, hdecode⟩ | ⟨_, _, hfound, -⟩
    · rw [hdecode]
      rfl
    · rw [hl] at hfound
      cases hfound
  | some cand =>
    obtain ⟨label, hdecode⟩ := decode?_processor h hl
    rw [hdecode]
    dsimp only
    cases hcs : commands? cand.operation.opcode with
    | none => rfl
    | some cs =>
      have hdone := Registers.completes_step word r c hcs
      rw [← Layout.decode_operation (operation_mem_of_lookup? hl) hcs] at hdone
      dsimp only [Option.map_some, carryOut, Instruction.values]
      cases hstep : r.step cand.operation.opcode word with
      | ok u r' =>
        rw [hstep] at hdone
        rw [hdone label]
        rfl
      | error e r' =>
        rw [hstep] at hdone
        rw [hdone label]
        rfl

/-- **A word does to the machine state what it does to the registers.** -/
theorem execute_onto (h : processor = .ok fresh) (hp : Recalls fresh seen p) (word : Word)
    (r : Registers) (c : Cells) : (p.execute word (r.onto c)).outcome = (r.execute word).1 ∧
      (p.execute word (r.onto c)).state = (r.execute word).2.onto c := by
  rw [execute_eq, hp.decode_fst, carryOut_onto h]
  exact ⟨rfl, rfl⟩

/-- **So do words one after another.** The processor stays one that recalls words. -/
theorem run_onto (h : processor = .ok fresh) (hp : Recalls fresh seen p) (words : List Word)
    (r : Registers) (c : Cells) : (p.executeAll (r.onto c) words).outcomes = (r.run words).1 ∧
      (p.executeAll (r.onto c) words).state = (r.run words).2.onto c ∧
      ∃ seen', Recalls fresh seen' (p.executeAll (r.onto c) words).processor := by
  induction words generalizing p seen r with
  | nil => exact ⟨rfl, rfl, seen, hp⟩
  | cons word words ih =>
    obtain ⟨houtcome, hstate⟩ := execute_onto h hp word r c
    have hnext := ih (hp.next (.execute word (r.onto c))) (r.execute word).2
    rw [← hstate] at hnext
    exact ⟨congrArg₂ List.cons houtcome hnext.1, hnext.2⟩

end

end Chip8

end Isa16
