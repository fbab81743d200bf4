import Isa16.Decoding.Instruction
import Isa16.Proofs.Decoding.Dispatch

/-!
# Operand values into words and back

* `Field.getLsbD_get`, `Field.getLsbD_set`: reading and writing a field, bit by bit. A field reads
  back what was written, as far as it fits (`Field.get_set`), and fields without a common position
  do not see each other (`Field.set_and_mask`).
* `pairwise_of_sharedBits`, `getLsbD_remainingBits`: what the checks of an operation say about the
  fields of its operands.
* `Operation.place`: values put into their fields one after the other; `Operation.and_mask_place`
  and `Operation.get_place` say what is left of the word and of each value.
* `Operation.eq_of_decode_eq`: a matching word is determined by its operand values.
* **`Operation.encode_inverse_decode`**: encoding and decoding are inverse to each other.
-/

namespace Isa16

/-! ## One field -/

namespace Field

variable {f g : Field} {value word : Word}

theorem getLsbD_valueMask (f : Field) (i : Nat) :
    f.valueMask.getLsbD i = f.mask.getLsbD (f.lowest + i) := by
  rw [valueMask, BitVec.getLsbD_ushiftRight]

theorem getLsbD_get (f : Field) (word : Word) (i : Nat) :
    (f.get word).getLsbD i =
      (word.getLsbD (f.lowest + i) && f.mask.getLsbD (f.lowest + i)) := by
  rw [get, BitVec.getLsbD_ushiftRight, BitVec.getLsbD_and]

theorem getLsbD_set (f : Field) (value word : Word) (i : Nat) :
    (f.set value word).getLsbD i =
      if f.mask.getLsbD i then value.getLsbD (i - f.lowest) else word.getLsbD i := by
  simp only [set, BitVec.getLsbD_or, BitVec.getLsbD_and, BitVec.getLsbD_not,
    BitVec.getLsbD_shiftLeft, getLsbD_valueMask]
  by_cases hw : i < 16
  · by_cases hl : i < f.lowest
    · have hi : f.mask.getLsbD i = false :=
        Bool.eq_false_iff.mpr fun hc => Nat.not_lt.mpr (Bits.lowest_le hc) hl
      simp only [hw, hl, hi, decide_true, Bool.not_true, Bool.not_false, Bool.false_and,
        Bool.and_false, Bool.and_true, Bool.or_false, Bool.false_eq_true, if_false]
    · rw [Nat.add_sub_cancel' (Nat.le_of_not_lt hl)]
      cases hi : f.mask.getLsbD i <;>
        simp only [hw, hl, decide_true, decide_false, Bool.not_true, Bool.not_false, Bool.true_and,
          Bool.and_false, Bool.and_true, Bool.or_false, Bool.false_or, Bool.false_eq_true,
          if_true, if_false]
  · have hmask : f.mask.getLsbD i = false := BitVec.getLsbD_of_ge _ _ (by omega)
    have hword : word.getLsbD i = false := BitVec.getLsbD_of_ge _ _ (by omega)
    simp only [hw, hmask, hword, decide_false, Bool.false_and, Bool.or_false, Bool.false_eq_true,
      if_false]

/-- **A field reads back what was written**, without the bits that do not fit. -/
theorem get_set (f : Field) (value word : Word) : f.get (f.set value word) = value &&& f.valueMask := by
  refine BitVec.eq_of_getLsbD_eq fun i _ => ?_
  rw [getLsbD_get, getLsbD_set, BitVec.getLsbD_and, getLsbD_valueMask, Nat.add_sub_cancel_left]
  cases f.mask.getLsbD (f.lowest + i) <;> simp

theorem get_and_valueMask (f : Field) (word : Word) : f.get word &&& f.valueMask = f.get word := by
  refine BitVec.eq_of_getLsbD_eq fun i _ => ?_
  rw [BitVec.getLsbD_and, getLsbD_get, getLsbD_valueMask, Bool.and_assoc, Bool.and_self]

theorem getLsbD_eq_of_get_eq {v w : Word} (h : f.get v = f.get w) {i : Nat}
    (hi : f.mask.getLsbD i = true) : v.getLsbD i = w.getLsbD i := by
  have hl : f.lowest + (i - f.lowest) = i := Nat.add_sub_cancel' (Bits.lowest_le hi)
  have hbit := congrArg (BitVec.getLsbD · (i - f.lowest)) h
  simpa only [getLsbD_get, hl, hi, Bool.and_true] using hbit

/-! ## Fields without a common position -/

/-- The fields share no position. -/
def Apart (f g : Field) : Prop :=
  f.overlaps g = false

theorem apart_iff : f.Apart g ↔ f.mask &&& g.mask = 0 := by
  simp [Apart, overlaps]

theorem Apart.symm (h : f.Apart g) : g.Apart f := by
  rw [apart_iff] at *
  rw [BitVec.and_comm, h]

theorem Apart.getLsbD (h : f.Apart g) {i : Nat} (hi : f.mask.getLsbD i = true) :
    g.mask.getLsbD i = false := by
  have hbit := congrArg (BitVec.getLsbD · i) (apart_iff.mp h)
  simpa [hi] using hbit

theorem set_and_mask (h : f.Apart g) (value word : Word) :
    f.set value word &&& g.mask = word &&& g.mask := by
  refine BitVec.eq_of_getLsbD_eq fun i _ => ?_
  rw [BitVec.getLsbD_and, BitVec.getLsbD_and, getLsbD_set]
  cases hi : f.mask.getLsbD i with
  | false => simp
  | true => simp [h.getLsbD hi]

end Field

/-! ## The fields of an operation -/

/-- Masks that are collected one after the other share no bit exactly if none has been shared
before, none shares one with those before, and no two of them do. -/
theorem foldl_shared_eq_zero_iff (masks : List Word) (seen shared : Word) :
    (masks.foldl (fun (seen, shared) m => (seen ||| m, shared ||| (seen &&& m)))
        (seen, shared)).2 = 0 ↔
      shared = 0 ∧ (∀ m ∈ masks, seen &&& m = 0) ∧ masks.Pairwise fun a b => a &&& b = 0 := by
  induction masks generalizing seen shared with
  | nil => simp
  | cons m masks ih =>
    have hor (a b : Word) : a ||| b = 0 ↔ a = 0 ∧ b = 0 := BitVec.or_eq_zero_iff
    rw [List.foldl_cons, ih]
    simp only [BitVec.and_or_distrib_right, hor, List.forall_mem_cons, List.pairwise_cons,
      forall_and]
    constructor
    · rintro ⟨⟨hshared, hm⟩, ⟨hseen, hrest⟩, hpairs⟩
      exact ⟨hshared, ⟨hm, hseen⟩, hrest, hpairs⟩
    · rintro ⟨hshared, ⟨hm, hseen⟩, hrest, hpairs⟩
      exact ⟨⟨hshared, hm⟩, ⟨hseen, hrest⟩, hpairs⟩

theorem pairwise_of_sharedBits {masks : List Word} (h : sharedBits masks = 0) :
    masks.Pairwise fun a b => a &&& b = 0 :=
  ((foldl_shared_eq_zero_iff masks 0 0).mp h).2.2

theorem getLsbD_foldl_xor {masks : List Word} (h : masks.Pairwise fun a b => a &&& b = 0)
    (bits : Word) (i : Nat) :
    (masks.foldl (· ^^^ ·) bits).getLsbD i =
      (bits.getLsbD i ^^ masks.any (·.getLsbD i)) := by
  induction masks generalizing bits with
  | nil => simp
  | cons m masks ih =>
    obtain ⟨hm, hrest⟩ := List.pairwise_cons.mp h
    rw [List.foldl_cons, ih hrest, BitVec.getLsbD_xor, List.any_cons, Bool.xor_assoc]
    congr 1
    cases hi : m.getLsbD i with
    | false => simp
    | true =>
      have hnone : masks.any (·.getLsbD i) = false := by
        refine List.any_eq_false.mpr fun m' hm' => ?_
        have hbit := congrArg (BitVec.getLsbD · i) (hm m' hm')
        simpa [hi] using hbit
      simp [hnone]

theorem getLsbD_remainingBits {masks : List Word} (h : sharedBits masks = 0) {i : Nat}
    (hi : i < 16) : (remainingBits masks).getLsbD i = !masks.any (·.getLsbD i) := by
  have hall : (BitVec.allOnes 16).getLsbD i = true := by
    rw [BitVec.getLsbD_allOnes, decide_eq_true hi]
  rw [remainingBits, getLsbD_foldl_xor (pairwise_of_sharedBits h), hall, Bool.true_xor]

namespace Operation

variable {op : Operation} {word : Word}

theorem pairwise_apart (op : Operation) :
    op.operands.Pairwise fun a b => a.field.Apart b.field := by
  have h := pairwise_of_sharedBits op.sharedBits_eq
  rw [operandMasks, List.pairwise_map] at h
  exact h.imp Field.apart_iff.mpr

theorem getLsbD_fixed (op : Operation) {i : Nat} (hi : i < 16) :
    op.fixed.mask.getLsbD i = !op.operands.any (·.field.mask.getLsbD i) := by
  rw [fixed, getLsbD_remainingBits op.sharedBits_eq hi, operandMasks, List.any_map]
  rfl

theorem apart_fixed {o : Operand} (ho : o ∈ op.operands) : o.field.Apart op.fixed := by
  rw [Field.apart_iff]
  refine BitVec.eq_of_getLsbD_eq fun i hi => ?_
  rw [BitVec.getLsbD_and, getLsbD_fixed op hi]
  refine Eq.trans ?_ BitVec.getLsbD_zero.symm
  cases hbit : o.field.mask.getLsbD i with
  | false => rfl
  | true => rw [List.any_eq_true.mpr ⟨o, ho, hbit⟩, Bool.not_true, Bool.and_false]

theorem opcode_and_fixed (op : Operation) : op.opcode &&& op.fixed.mask = op.opcode := by
  refine BitVec.eq_of_getLsbD_eq fun i hi => ?_
  have hbit : (op.opcode &&& ~~~op.fixed.mask).getLsbD i = false := by
    rw [fixed, op.opcode_aligned]
    exact BitVec.getLsbD_zero
  rw [BitVec.getLsbD_and, BitVec.getLsbD_not, decide_eq_true hi, Bool.true_and] at hbit
  rw [BitVec.getLsbD_and]
  cases hop : op.opcode.getLsbD i with
  | false => rfl
  | true =>
    rw [hop, Bool.true_and, Bool.not_eq_false'] at hbit
    rw [hbit, Bool.and_self]

/-- **A matching word is determined by its operand values.** -/
theorem eq_of_decode_eq {v w : Word} (hv : op.matchesWord v = true)
    (hw : op.matchesWord w = true) (h : op.decode v = op.decode w) : v = w := by
  refine BitVec.eq_of_getLsbD_eq fun i hi => ?_
  by_cases ho : ∃ o ∈ op.operands, o.field.mask.getLsbD i = true
  · obtain ⟨o, ho, hbit⟩ := ho
    have hget : o.field.get v = o.field.get w := List.map_inj_left.mp h o ho
    exact Field.getLsbD_eq_of_get_eq hget hbit
  · have hfixed : op.fixed.mask.getLsbD i = true := by
      rw [getLsbD_fixed op hi, Bool.not_eq_true', List.any_eq_false]
      exact fun o hmem hbit => ho ⟨o, hmem, hbit⟩
    have heq : v &&& op.fixed.mask = w &&& op.fixed.mask :=
      (matchesWord_iff.mp hv).trans (matchesWord_iff.mp hw).symm
    have hbit := congrArg (BitVec.getLsbD · i) heq
    simpa [hfixed] using hbit

/-! ## Writing the operands -/

/-- Writes values into the fields of their operands, from the first to the last. -/
def place (assigned : List (Operand × Word)) (word : Word) : Word :=
  assigned.foldl (fun word (operand, value) => operand.field.set value word) word

theorem encode_eq {values : List Word} (h : values.length = op.operands.length) :
    op.encode values = .ok (place (op.operands.zip values) op.opcode) := by
  rw [encode, if_pos h, place]

theorem and_mask_place {assigned : List (Operand × Word)} {g : Field}
    (h : ∀ p ∈ assigned, p.1.field.Apart g) (word : Word) :
    place assigned word &&& g.mask = word &&& g.mask := by
  induction assigned generalizing word with
  | nil => rfl
  | cons p assigned ih =>
    obtain ⟨hp, hrest⟩ := List.forall_mem_cons.mp h
    calc place (p :: assigned) word &&& g.mask
        = p.1.field.set p.2 word &&& g.mask := ih hrest _
      _ = word &&& g.mask := Field.set_and_mask hp p.2 word

/-- **Every operand reads back its value**: later values do not touch it. -/
theorem get_place {assigned : List (Operand × Word)}
    (h : assigned.Pairwise fun p q => p.1.field.Apart q.1.field) (word : Word) :
    ∀ p ∈ assigned, p.1.field.get (place assigned word) = p.2 &&& p.1.field.valueMask := by
  induction assigned generalizing word with
  | nil => simp
  | cons p assigned ih =>
    obtain ⟨hp, hrest⟩ := List.pairwise_cons.mp h
    intro q hq
    rcases List.mem_cons.mp hq with rfl | hq
    · have hmask := and_mask_place fun p' hp' => (hp p' hp').symm
      calc q.1.field.get (place (q :: assigned) word)
          = q.1.field.get (q.1.field.set q.2 word) := by
            exact congrArg (fun bits : Word => bits >>> q.1.field.lowest) (hmask _)
        _ = q.2 &&& q.1.field.valueMask := Field.get_set _ _ _
    · exact ih hrest _ q hq

variable {values : List Word}

theorem pairwise_zip (h : values.length = op.operands.length) :
    (op.operands.zip values).Pairwise fun p q => p.1.field.Apart q.1.field := by
  have hpairwise := op.pairwise_apart
  rw [← List.map_fst_zip h.ge, List.pairwise_map] at hpairwise
  exact hpairwise

theorem matchesWord_place (op : Operation) (values : List Word) :
    op.matchesWord (place (op.operands.zip values) op.opcode) = true := by
  rw [matchesWord_iff, and_mask_place, opcode_and_fixed]
  exact fun p hp => apart_fixed (List.of_mem_zip hp).1

theorem decode_place (h : values.length = op.operands.length) :
    op.decode (place (op.operands.zip values) op.opcode) =
      List.zipWith (fun o value => value &&& o.field.valueMask) op.operands values := by
  have hread := get_place (pairwise_zip h) op.opcode
  generalize place (op.operands.zip values) op.opcode = word at hread ⊢
  calc op.decode word
      = ((op.operands.zip values).map Prod.fst).map (·.decode word) := by
        rw [List.map_fst_zip h.ge, decode]
    _ = (op.operands.zip values).map fun p => p.1.field.get word := List.map_map
    _ = (op.operands.zip values).map
          (Function.uncurry fun o value => value &&& o.field.valueMask) :=
        List.map_congr_left hread
    _ = List.zipWith (fun o value => value &&& o.field.valueMask) op.operands values :=
        List.map_uncurry_zip_eq_zipWith

theorem zipWith_valueMask_decode (op : Operation) (word : Word) :
    List.zipWith (fun o value => value &&& o.field.valueMask) op.operands (op.decode word) =
      op.decode word := by
  rw [decode, List.zipWith_map_right, List.zipWith_self]
  exact List.map_congr_left fun o _ => o.field.get_and_valueMask word

/-- **A matching word is encoded from its operand values.** -/
theorem encode_decode (h : op.matchesWord word = true) : op.encode (op.decode word) = .ok word := by
  have hlength : (op.decode word).length = op.operands.length := List.length_map _
  rw [encode_eq hlength]
  refine congrArg _ (eq_of_decode_eq (op.matchesWord_place _) h ?_)
  rw [decode_place hlength, zipWith_valueMask_decode]

/-- **Encoding and decoding are inverse to each other**, between the words that an operation
matches and the values that fit its operands. Bits that do not fit are dropped, and any other number
of values is refused. So what is decoded from a set of operations is encoded again. -/
theorem encode_inverse_decode (op : Operation) :
    (∀ word, op.matchesWord word = true → op.encode (op.decode word) = .ok word) ∧
      (∀ values, values.length = op.operands.length →
        ∃ word, op.encode values = .ok word ∧ op.matchesWord word = true ∧
          op.decode word =
            List.zipWith (fun o value => value &&& o.field.valueMask) op.operands values) ∧
      (∀ values, values.length ≠ op.operands.length →
        op.encode values = .error (.valueCount op.mnemonic op.operands.length values.length)) ∧
      ∀ (s : InstructionSet) (word : Word) (i : Instruction), s.decode? word = some i →
        i.operation.encode i.values = .ok word := by
  refine ⟨fun word h => encode_decode h, fun values h => ?_, fun values h => if_neg h,
    fun s word i h => ?_⟩
  · exact ⟨_, encode_eq h, op.matchesWord_place values, decode_place h⟩
  · obtain ⟨c, hc, rfl⟩ := Option.map_eq_some_iff.mp h
    exact encode_decode (InstructionSet.lookup?_mem hc).2

/-- Sparse fields that lie between each other, and one without positions. -/
def interleaved : Operation :=
  ⟨"MIX", 0x8001, [⟨⟨0x5A50⟩, .register, {}⟩, ⟨⟨0⟩, .constant, {}⟩, ⟨⟨0x2500⟩, .constant, {}⟩],
    by decide, by decide, by decide, by decide⟩

theorem encode_interleaved :
    interleaved.matchesWord 0xD551 = true ∧
      interleaved.encode (interleaved.decode 0xD551) = .ok 0xD551 ∧
      (∃ word, interleaved.encode [0xFFFF, 7, 4] = .ok word ∧
        interleaved.matchesWord word = true ∧ interleaved.decode word = [0x5A5, 0, 4]) ∧
      interleaved.encode [1] = .error (.valueCount "MIX" 3 1) ∧
      ∃ i, (InstructionSet.ofList [interleaved]).decode? 0xD551 = some i ∧
        i.operation.encode i.values = .ok 0xD551 := by
  obtain ⟨hword, hvalues, hcount, hset⟩ := encode_inverse_decode interleaved
  have hmatch : interleaved.matchesWord 0xD551 = true := by decide
  have hdecode : (InstructionSet.ofList [interleaved]).decode? 0xD551 =
      some ⟨0xD551, interleaved⟩ := by decide
  exact ⟨hmatch, hword _ hmatch, hvalues [0xFFFF, 7, 4] rfl, hcount [1] (by decide),
    _, hdecode, hset _ _ _ hdecode⟩

end Operation

end Isa16
