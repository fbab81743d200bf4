import Isa16.Chip8.Table
import Isa16.Proofs.Decoding.Dispatch
import Mathlib

/-!
# Which CHIP-8 operation a word is

* `Operation.Meets`: some word may be of both encodings.
* `precedes_of_meets`: every operation but `SYS` goes before the other operations that it meets.
* **`lookup?_of_matchesWord`**: such an operation is found for every word that it matches.
* `opcode_eq_ret_iff`, `opcode_eq_call_iff`: the words of returns and of calls.
-/

namespace Isa16

/-- Where both encodings fix a bit, they agree. -/
def Operation.Meets (op op' : Operation) : Prop :=
  op.opcode &&& op'.fixed.mask = op'.opcode &&& op.fixed.mask

instance (op op' : Operation) : Decidable (op.Meets op') :=
  inferInstanceAs (Decidable (_ = _))

instance (c d : Candidate) : Decidable (c.Precedes d) :=
  inferInstanceAs (Decidable (_ ∨ _))

theorem Operation.meets_of_matchesWord {op op' : Operation} {word : Word}
    (h : op.matchesWord word = true) (h' : op'.matchesWord word = true) : op.Meets op' := by
  rw [matchesWord_iff] at h h'
  rw [Meets, ← h, ← h', BitVec.and_assoc, BitVec.and_assoc, BitVec.and_comm op.fixed.mask]

namespace Chip8

/-- The first operation, `SYS`, is the only one that others shadow. -/
theorem precedes_of_meets : ∀ c ∈ numbered operations, c.index ≠ 0 →
    ∀ d ∈ numbered operations, c.operation.Meets d.operation →
      c.index = d.index ∨ c.Precedes d := by
  decide +kernel

/-- **Every other operation is found for the words that it matches.** -/
theorem lookup?_of_matchesWord {c : Candidate} {word : Word} (hc : c ∈ numbered operations)
    (hne : c.index ≠ 0) (h : c.operation.matchesWord word = true) :
    instructionSet.lookup? word = some c := by
  refine InstructionSet.lookup?_eq_some_iff.mpr ⟨hc, h, fun d hd hm hdc => ?_⟩
  rcases precedes_of_meets c hc hne d hd (Operation.meets_of_matchesWord h hm) with heq | hlt
  · exact absurd (eq_of_index_eq hc hd heq).symm hdc
  · exact hlt

theorem lookup?_ret : instructionSet.lookup? 0x00ee = some ⟨2, sound "RET" 0x00ee []⟩ :=
  lookup?_of_matchesWord (by decide) (by decide) (by decide)

theorem lookup?_call {word : Word} (h : word &&& 0xf000 = 0x2000) :
    instructionSet.lookup? word = some ⟨4, sound "CALL" 0x2000 [address]⟩ :=
  lookup?_of_matchesWord (by decide) (by decide) (matchesWord_iff.mpr h)

section

variable {c : Candidate} {word : Word}

theorem mem_of_lookup? (h : instructionSet.lookup? word = some c) :
    c ∈ numbered operations ∧ c.operation.matchesWord word = true :=
  InstructionSet.lookup?_mem h

theorem operation_mem_of_lookup? (h : instructionSet.lookup? word = some c) :
    c.operation ∈ operations :=
  operation_mem_of_mem_numbered (mem_of_lookup? h).1

theorem matchesWord_of_opcode {opcode : Word} (mask : Word)
    (hmask : ∀ op ∈ operations, op.opcode = opcode → op.fixed.mask = mask)
    (h : instructionSet.lookup? word = some c) (hc : c.operation.opcode = opcode) :
    word &&& mask = opcode := by
  rw [← hmask c.operation (operation_mem_of_lookup? h) hc, ← hc]
  exact matchesWord_iff.mp (mem_of_lookup? h).2

theorem opcode_eq_ret_iff (h : instructionSet.lookup? word = some c) :
    c.operation.opcode = 0x00ee ↔ word = 0x00ee := by
  constructor
  · intro hc
    have hword := matchesWord_of_opcode 0xffff (by decide) h hc
    rwa [show (0xffff : Word) = BitVec.allOnes 16 from rfl, BitVec.and_allOnes] at hword
  · rintro rfl
    rw [lookup?_ret] at h
    cases h
    rfl

theorem opcode_eq_call_iff (h : instructionSet.lookup? word = some c) :
    c.operation.opcode = 0x2000 ↔ word &&& 0xf000 = 0x2000 := by
  constructor
  · exact matchesWord_of_opcode 0xf000 (by decide) h
  · intro hword
    rw [lookup?_call hword] at h
    cases h
    rfl

end

end Chip8

end Isa16
