import Isa16.Proofs.Encoding.RoundTrip

/-!
# When an operation is made

* `owners`: how many operands have a position of the word. `Operation.Sound` says with it what the
  parts of an operation have to satisfy, and `Operation.FirstFault` which fault is reported of parts
  that do not.
* `getLsbD_foldl_shared`, `getLsbD_sharedBits_iff`: a bit is shared if two operands have it or more.
* `remainingBits_eq`: the remaining bits of operands that share none.
* **`Operation.make_iff`**: an operation is made exactly of sound parts, and of all others the first
  fault is reported.
-/

namespace Isa16

/-- The number of operands that have a position of the word. -/
def owners (operands : List Operand) (i : Nat) : Nat :=
  operands.countP (·.field.mask.getLsbD i)

/-- The positions that an operand has. -/
def operandField (operands : List Operand) : Field :=
  Field.union (operands.map (·.field))

namespace Operation

/-- A mnemonic is not empty and in capital letters. -/
def IsCapitals (mnemonic : String) : Prop :=
  mnemonic ≠ "" ∧ ∀ c ∈ mnemonic.toList, 'A' ≤ c ∧ c ≤ 'Z'

/-- What the parts of an operation have to satisfy. -/
structure Sound (mnemonic : String) (opcode : Word) (operands : List Operand) : Prop where
  capitals : IsCapitals mnemonic
  /-- No two operands share a position. -/
  apart : ∀ i, owners operands i ≤ 1
  /-- Some position is left. -/
  fixed : (operandField operands).mask ≠ 0xffff
  /-- The opcode is outside the operands. -/
  aligned : opcode &&& (operandField operands).mask = 0

/-- The fault of the first condition that the parts do not satisfy. -/
inductive FirstFault (mnemonic : String) (opcode : Word) (operands : List Operand) :
    EncodingError → Prop
  | mnemonic (hcapitals : ¬ IsCapitals mnemonic) :
    FirstFault mnemonic opcode operands (.badMnemonic mnemonic)
  | shared {bits : Word} (hcapitals : IsCapitals mnemonic) (hshared : ∃ i, 2 ≤ owners operands i)
    (hbits : ∀ i, bits.getLsbD i = true ↔ 2 ≤ owners operands i) :
    FirstFault mnemonic opcode operands (.sharedBits mnemonic bits)
  | unfixed (hcapitals : IsCapitals mnemonic) (hapart : ∀ i, owners operands i ≤ 1)
    (hunfixed : (operandField operands).mask = 0xffff) :
    FirstFault mnemonic opcode operands (.noFixedBits mnemonic)
  | unaligned {bits : Word} (hcapitals : IsCapitals mnemonic) (hapart : ∀ i, owners operands i ≤ 1)
    (hfixed : (operandField operands).mask ≠ 0xffff)
    (hbits : bits = opcode &&& (operandField operands).mask) (hne : bits ≠ 0) :
    FirstFault mnemonic opcode operands (.opcodeInOperands mnemonic opcode bits)

end Operation

/-! ## Shared and remaining bits -/

theorem getLsbD_foldl_shared (masks : List Word) (seen shared : Word) (i : Nat) :
    (masks.foldl (fun (seen, shared) m => (seen ||| m, shared ||| (seen &&& m)))
        (seen, shared)).2.getLsbD i = true ↔
      shared.getLsbD i = true ∨ 2 ≤ (seen.getLsbD i).toNat + masks.countP (·.getLsbD i) := by
  induction masks generalizing seen shared with
  | nil =>
    have hseen := Bool.toNat_le (seen.getLsbD i)
    rw [List.foldl_nil, List.countP_nil, or_iff_left (by omega)]
  | cons m masks ih =>
    rw [List.foldl_cons, ih, List.countP_cons, BitVec.getLsbD_or, BitVec.getLsbD_or,
      BitVec.getLsbD_and]
    cases shared.getLsbD i with
    | true => simp
    | false =>
      generalize masks.countP (·.getLsbD i) = count
      cases seen.getLsbD i <;> cases m.getLsbD i <;> simp <;> omega

theorem countP_operandMasks (operands : List Operand) (i : Nat) :
    (operandMasks operands).countP (·.getLsbD i) = owners operands i :=
  List.countP_map

/-- **A bit is shared exactly if two operands have it or more.** -/
theorem getLsbD_sharedBits_iff (operands : List Operand) (i : Nat) :
    (sharedBits (operandMasks operands)).getLsbD i = true ↔ 2 ≤ owners operands i := by
  rw [sharedBits, getLsbD_foldl_shared, countP_operandMasks]
  simp

theorem sharedBits_eq_zero_iff (operands : List Operand) :
    sharedBits (operandMasks operands) = 0 ↔ ∀ i, owners operands i ≤ 1 := by
  have hbit (i : Nat) := getLsbD_sharedBits_iff operands i
  constructor
  · intro h i
    have hi := hbit i
    rw [h] at hi
    simp at hi
    omega
  · intro h
    refine BitVec.eq_of_getLsbD_eq fun i _ => ?_
    refine Eq.trans (Bool.eq_false_iff.mpr fun hi => ?_) BitVec.getLsbD_zero.symm
    exact absurd ((hbit i).mp hi) (by have := h i; omega)

theorem getLsbD_foldl_or (fields : List Field) (bits : Word) (i : Nat) :
    (fields.foldl (fun bits f => bits ||| f.mask) bits).getLsbD i =
      (bits.getLsbD i || fields.any (·.mask.getLsbD i)) := by
  induction fields generalizing bits with
  | nil => rw [List.foldl_nil, List.any_nil, Bool.or_false]
  | cons f fields ih => rw [List.foldl_cons, ih, BitVec.getLsbD_or, List.any_cons, Bool.or_assoc]

theorem getLsbD_operandField (operands : List Operand) (i : Nat) :
    (operandField operands).mask.getLsbD i = operands.any (·.field.mask.getLsbD i) := by
  rw [operandField, Field.union, getLsbD_foldl_or, List.any_map]
  exact (congrArg (· || _) BitVec.getLsbD_zero).trans (Bool.false_or _)

/-- **The remaining bits of operands that share none** are those outside all of them. -/
theorem remainingBits_eq {operands : List Operand} (h : ∀ i, owners operands i ≤ 1) :
    remainingBits (operandMasks operands) = ~~~(operandField operands).mask := by
  refine BitVec.eq_of_getLsbD_eq fun i hi => ?_
  rw [getLsbD_remainingBits ((sharedBits_eq_zero_iff operands).mpr h) hi, BitVec.getLsbD_not,
    decide_eq_true hi, Bool.true_and, getLsbD_operandField, operandMasks, List.any_map]
  rfl

theorem remainingBits_ne_zero_iff {operands : List Operand} (h : ∀ i, owners operands i ≤ 1) :
    remainingBits (operandMasks operands) ≠ 0 ↔ (operandField operands).mask ≠ 0xffff := by
  rw [remainingBits_eq h, not_iff_not]
  exact BitVec.not_eq_comm

theorem opcode_and_not_remainingBits {operands : List Operand} (h : ∀ i, owners operands i ≤ 1)
    (opcode : Word) : opcode &&& ~~~remainingBits (operandMasks operands) =
      opcode &&& (operandField operands).mask := by
  rw [remainingBits_eq h, BitVec.not_not]

namespace Operation

theorem isMnemonic_iff (mnemonic : String) : isMnemonic mnemonic = true ↔ IsCapitals mnemonic := by
  have hupper (c : Char) : c.isUpper = true ↔ 'A' ≤ c ∧ c ≤ 'Z' := by
    simp only [Char.isUpper, decide_eq_true_eq]
    rfl
  simp [isMnemonic, IsCapitals, hupper]

/-! ## Making operations -/

variable {mnemonic : String} {opcode : Word} {operands : List Operand} {e : EncodingError}

theorem FirstFault.not_sound (h : FirstFault mnemonic opcode operands e) :
    ¬ Sound mnemonic opcode operands := by
  intro hsound
  cases h with
  | mnemonic hcapitals => exact hcapitals hsound.capitals
  | shared _ hshared _ =>
    obtain ⟨i, hi⟩ := hshared
    exact absurd (hsound.apart i) (by omega)
  | unfixed _ _ hunfixed => exact hsound.fixed hunfixed
  | unaligned _ _ _ hbits hne => exact hne (hbits.trans hsound.aligned)

theorem FirstFault.make_eq (h : FirstFault mnemonic opcode operands e) :
    make mnemonic opcode operands = .error e := by
  have hmnemonic (hcapitals : IsCapitals mnemonic) := (isMnemonic_iff mnemonic).mpr hcapitals
  have hshared := sharedBits_eq_zero_iff operands
  cases h with
  | mnemonic hcapitals => rw [make, dif_neg fun h => hcapitals ((isMnemonic_iff mnemonic).mp h)]
  | @shared bits hcapitals htwo hbits =>
    obtain ⟨i, hi⟩ := htwo
    have hsome : sharedBits (operandMasks operands) ≠ 0 := fun h =>
      absurd (hshared.mp h i) (by omega)
    have heq : bits = sharedBits (operandMasks operands) := by
      refine BitVec.eq_of_getLsbD_eq fun j _ => ?_
      rw [Bool.eq_iff_iff, hbits, getLsbD_sharedBits_iff]
    rw [make, dif_pos (hmnemonic hcapitals), dif_neg hsome, heq]
  | unfixed hcapitals hapart hunfixed =>
    have hnone := mt (remainingBits_ne_zero_iff hapart).mp (not_not.mpr hunfixed)
    rw [make, dif_pos (hmnemonic hcapitals), dif_pos (hshared.mpr hapart), dif_neg hnone]
  | unaligned hcapitals hapart hfixed hbits hne =>
    have hstray := opcode_and_not_remainingBits hapart opcode
    have hsome := (remainingBits_ne_zero_iff hapart).mpr hfixed
    rw [make, dif_pos (hmnemonic hcapitals), dif_pos (hshared.mpr hapart), dif_pos hsome,
      dif_neg (by rwa [hstray, ← hbits]), hstray, hbits]

theorem make_cases (mnemonic : String) (opcode : Word) (operands : List Operand) :
    (Sound mnemonic opcode operands ∧ ∃ op, make mnemonic opcode operands = .ok op ∧
        op.mnemonic = mnemonic ∧ op.opcode = opcode ∧ op.operands = operands) ∨
      ∃ e, make mnemonic opcode operands = .error e ∧ FirstFault mnemonic opcode operands e := by
  unfold make
  split_ifs with hmnemonic hshared hfixed haligned
  · have hapart := (sharedBits_eq_zero_iff operands).mp hshared
    rw [opcode_and_not_remainingBits hapart] at haligned
    exact Or.inl ⟨⟨(isMnemonic_iff mnemonic).mp hmnemonic, hapart,
      (remainingBits_ne_zero_iff hapart).mp hfixed, haligned⟩, _, rfl, rfl, rfl, rfl⟩
  · have hapart := (sharedBits_eq_zero_iff operands).mp hshared
    have hbits := opcode_and_not_remainingBits hapart opcode
    exact Or.inr ⟨_, rfl, .unaligned ((isMnemonic_iff mnemonic).mp hmnemonic) hapart
      ((remainingBits_ne_zero_iff hapart).mp hfixed) hbits haligned⟩
  · have hapart := (sharedBits_eq_zero_iff operands).mp hshared
    exact Or.inr ⟨_, rfl, .unfixed ((isMnemonic_iff mnemonic).mp hmnemonic) hapart
      (not_not.mp fun h => hfixed ((remainingBits_ne_zero_iff hapart).mpr h))⟩
  · have htwo : ∃ i, 2 ≤ owners operands i := by
      by_contra hnone
      push Not at hnone
      exact hshared ((sharedBits_eq_zero_iff operands).mpr fun i => Nat.le_of_lt_succ (hnone i))
    exact Or.inr ⟨_, rfl, .shared ((isMnemonic_iff mnemonic).mp hmnemonic) htwo
      (getLsbD_sharedBits_iff operands)⟩
  · exact Or.inr ⟨_, rfl, .mnemonic fun h => hmnemonic ((isMnemonic_iff mnemonic).mpr h)⟩

/-- **An operation is made exactly of sound parts.** It has these parts, and its fixed bits are
those outside the operands. Of all other parts the first fault is reported. -/
theorem make_iff (mnemonic : String) (opcode : Word) (operands : List Operand) :
    ((∃ op, make mnemonic opcode operands = .ok op) ↔ Sound mnemonic opcode operands) ∧
      (∀ op, make mnemonic opcode operands = .ok op →
        op.mnemonic = mnemonic ∧ op.opcode = opcode ∧ op.operands = operands ∧
          op.fixed.mask = ~~~(operandField operands).mask) ∧
      ∀ e, make mnemonic opcode operands = .error e ↔ FirstFault mnemonic opcode operands e := by
  rcases make_cases mnemonic opcode operands with ⟨hsound, op, hop, hparts⟩ | ⟨e, he, hfault⟩
  · refine ⟨iff_of_true ⟨op, hop⟩ hsound, fun op' hop' => ?_, fun e => ?_⟩
    · obtain rfl := Except.ok.inj (hop.symm.trans hop')
      obtain ⟨hmnemonic, hopcode, hoperands⟩ := hparts
      refine ⟨hmnemonic, hopcode, hoperands, ?_⟩
      rw [fixed, hoperands]
      exact remainingBits_eq hsound.apart
    · rw [hop]
      exact iff_of_false (fun h => by cases h) fun h => h.not_sound hsound
  · rw [he]
    refine ⟨iff_of_false ?_ hfault.not_sound, ?_, fun e' => ⟨fun h => ?_, fun h => ?_⟩⟩
    · rintro ⟨op, hop⟩
      cases hop
    · intro op hop
      cases hop
    · obtain rfl := Except.error.inj h
      exact hfault
    · rw [← he, h.make_eq]

/-- Fields that lie between each other, and a bit that three operands have. -/
theorem make_interleaved :
    let overlapping : List Operand := [⟨⟨0x00f1⟩, .constant, {}⟩, ⟨⟨0x0f01⟩, .register, {}⟩,
      ⟨⟨0⟩, .constant, {}⟩, ⟨⟨0x0001⟩, .constant, {}⟩]
    make "MIX" 0x8001 interleaved.operands = .ok interleaved ∧
      Sound "MIX" 0x8001 interleaved.operands ∧
      interleaved.fixed.mask = ~~~(operandField interleaved.operands).mask ∧
      make "BAD" 0xf000 overlapping = .error (.sharedBits "BAD" 0x0001) ∧
      FirstFault "BAD" 0xf000 overlapping (.sharedBits "BAD" 0x0001) := by
  intro overlapping
  have hmade : make "MIX" 0x8001 interleaved.operands = .ok interleaved := rfl
  have hfault : make "BAD" 0xf000 overlapping = .error (.sharedBits "BAD" 0x0001) := rfl
  obtain ⟨hsound, hparts, -⟩ := make_iff "MIX" 0x8001 interleaved.operands
  obtain ⟨-, -, hfirst⟩ := make_iff "BAD" 0xf000 overlapping
  exact ⟨hmade, hsound.mp ⟨_, hmade⟩, (hparts _ hmade).2.2.2, hfault, (hfirst _).mp hfault⟩

end Operation

end Isa16
