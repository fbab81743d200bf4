import Isa16.Proofs.Chip8.Machine

/-!
# Well-formed CHIP-8 states

* `nextSeed_ne_zero`: the random numbers never run dry.
* `Registers.step_cases`, `Registers.execute_cases`: all that a word can do to the stack pointer and
  to the seed.
* `Registers.exists_error_iff`: when a word fails.
* `Registers.Valid`: the stack pointer is in its range and the seed is a word other than zero. Every
  word that does not fail keeps this.
* **`executeAll_wellFormed`**: from the start, words that do not fail keep the machine state well
  formed, and only a return from an empty stack and a call on a full one fail.
* **`state_of_error`**: what a word that fails leaves.
-/

namespace Isa16.Chip8

open Processor

/-! ## Random numbers -/

section

variable {w : Nat} {a : BitVec w} {k : Nat}

theorem eq_zero_of_xor_shiftLeft (hk : 0 < k) (h : a ^^^ (a <<< k) = 0) : a = 0 := by
  have heq : a = a <<< k := BitVec.xor_eq_zero_iff.mp h
  have hbits : ∀ i, a.getLsbD i = false := by
    intro i
    induction i using Nat.strong_induction_on with
    | _ i ih =>
      rw [heq, BitVec.getLsbD_shiftLeft]
      by_cases hi : i < k
      · simp [hi]
      · simp [ih (i - k) (by omega)]
  exact BitVec.eq_of_getLsbD_eq fun i _ => by rw [hbits i]; simp

theorem eq_zero_of_xor_shiftRight (hk : 0 < k) (h : a ^^^ (a >>> k) = 0) : a = 0 := by
  have heq : a = a >>> k := BitVec.xor_eq_zero_iff.mp h
  have hnat : a.toNat = a.toNat / 2 ^ k := by
    conv_lhs => rw [heq, BitVec.toNat_ushiftRight, Nat.shiftRight_eq_div_pow]
  by_contra hne
  have hpos : 0 < a.toNat := Nat.pos_iff_ne_zero.mpr fun h0 => hne (BitVec.eq_of_toNat_eq h0)
  have hlt := Nat.div_lt_self hpos (Nat.one_lt_two_pow hk.ne')
  omega

/-- **The random numbers never run dry**: every stage of the shift register keeps a seed from
zero. -/
theorem nextSeed_ne_zero {seed : Word} (h : seed ≠ 0) : nextSeed seed ≠ 0 := fun hzero =>
  h (eq_zero_of_xor_shiftLeft (k := 7) (by decide)
    (eq_zero_of_xor_shiftRight (k := 9) (by decide)
      (eq_zero_of_xor_shiftLeft (k := 8) (by decide) hzero)))

end

/-! ## Steps -/

theorem and_top_digit (word : Word) :
    word &&& 0xf000 = 0x2000 ↔ 0x2000 ≤ word ∧ word ≤ 0x2fff := by
  have hmask : word &&& (0xf000 : Word) = (word >>> 12) <<< 12 := by
    have hdigit : ∀ i < 16, (0xf000 : Word).getLsbD i = decide (12 ≤ i) := by decide
    refine BitVec.eq_of_getLsbD_eq fun i hi => ?_
    rw [BitVec.getLsbD_and, hdigit i hi, BitVec.getLsbD_shiftLeft, BitVec.getLsbD_ushiftRight]
    by_cases h : 12 ≤ i
    · simp [h, hi]
    · simp [h]
  rw [hmask, ← BitVec.toNat_inj, BitVec.le_def, BitVec.le_def, BitVec.toNat_shiftLeft,
    BitVec.toNat_ushiftRight, Nat.shiftRight_eq_div_pow, Nat.shiftLeft_eq]
  have hword := word.isLt
  simp
  omega

namespace Registers

theorem step_cases (r : Registers) (opcode word : Word) :
    (opcode = 0x00ee ∧ r.step opcode word = r.ret) ∨
    (opcode = 0x2000 ∧ r.step opcode word = r.callAt (lowAddress word)) ∨
    (opcode ≠ 0x00ee ∧ opcode ≠ 0x2000 ∧ ∃ r', r.step opcode word = .ok () r' ∧
      r'.stack = r.stack ∧ r'.sp = r.sp ∧
      (r'.seed = r.seed ∨ r'.seed = Int64.ofNat r.seed'.toNat)) := by
  by_cases hret : opcode = 0x00ee
  · subst hret
    exact Or.inl ⟨rfl, rfl⟩
  by_cases hcall : opcode = 0x2000
  · subst hcall
    exact Or.inr (Or.inl ⟨rfl, rfl⟩)
  refine Or.inr (Or.inr ⟨hret, hcall, ?_⟩)
  have hskip : ∀ b, ∃ r', (.ok () (r.skipIf b) : EStateM.Result RunError Registers Unit) =
      .ok () r' ∧ r'.stack = r.stack ∧ r'.sp = r.sp ∧
        (r'.seed = r.seed ∨ r'.seed = Int64.ofNat r.seed'.toNat) := by
    intro b
    cases b <;> exact ⟨_, rfl, rfl, rfl, Or.inl rfl⟩
  unfold step
  dsimp only
  split
  case h_1 h => exact absurd (BitVec.eq_of_toNat_eq h) hret
  case h_3 h => exact absurd (BitVec.eq_of_toNat_eq h) hcall
  case h_4 | h_5 | h_6 | h_7 => exact hskip _
  case h_12 => exact ⟨_, rfl, rfl, rfl, Or.inr rfl⟩
  case h_18 => split <;> exact ⟨_, rfl, rfl, rfl, Or.inl rfl⟩
  all_goals exact ⟨_, rfl, rfl, rfl, Or.inl rfl⟩

theorem execute_cases (r : Registers) (word : Word) :
    (word = 0x00ee ∧ ∃ mnemonic, r.execute word = finish word mnemonic r.ret) ∨
    (word &&& 0xf000 = 0x2000 ∧
      ∃ mnemonic, r.execute word = finish word mnemonic (r.callAt (lowAddress word))) ∨
    (word ≠ 0x00ee ∧ word &&& 0xf000 ≠ 0x2000 ∧ ∃ outcome r', r.execute word = (.ok outcome, r') ∧
      r'.stack = r.stack ∧ r'.sp = r.sp ∧
      (r'.seed = r.seed ∨ r'.seed = Int64.ofNat r.seed'.toNat)) := by
  unfold execute
  cases hl : instructionSet.lookup? word with
  | none =>
    refine Or.inr (Or.inr ⟨?_, fun h => ?_, _, r, rfl, rfl, rfl, Or.inl rfl⟩)
    · rintro rfl
      rw [lookup?_ret] at hl
      cases hl
    · rw [lookup?_call h] at hl
      cases hl
  | some c =>
    dsimp only
    rw [← opcode_eq_ret_iff hl, ← opcode_eq_call_iff hl]
    rcases r.step_cases c.operation.opcode word with ⟨hret, hstep⟩ | ⟨hcall, hstep⟩ |
      ⟨hret, hcall, r', hstep, hkeep⟩
    · refine Or.inl ⟨hret, c.operation.mnemonic, ?_⟩
      rw [hstep, hret]
      rfl
    · refine Or.inr (Or.inl ⟨hcall, c.operation.mnemonic, ?_⟩)
      rw [hstep, hcall]
      rfl
    · refine Or.inr (Or.inr ⟨mt (opcode_eq_ret_iff hl).mpr hret,
        mt (opcode_eq_call_iff hl).mpr hcall, ?_⟩)
      cases commands? c.operation.opcode with
      | none => exact ⟨_, r, rfl, rfl, rfl, Or.inl rfl⟩
      | some cs => exact ⟨_, r', by rw [hstep]; rfl, hkeep⟩

/-! ## The stack pointer and the seed -/

theorem slot?_eq_none_iff {sp : Int64} : slot? sp = none ↔ sp.toInt < 0 ∨ 16 ≤ sp.toInt := by
  unfold slot?
  split
  next h =>
    simp
    omega
  next h =>
    simp
    omega

/-- The stack pointer is in its range and the seed is a word other than zero. -/
structure Valid (r : Registers) : Prop where
  sp : 0 ≤ r.sp.toInt ∧ r.sp.toInt ≤ 16
  seed : 1 ≤ r.seed.toInt ∧ r.seed.toInt ≤ 65535

theorem toInt_sub_one {sp : Int64} (h : 0 ≤ sp.toInt ∧ sp.toInt ≤ 16) :
    (sp - 1).toInt = sp.toInt - 1 := by
  rw [Int64.toInt_sub, show (1 : Int64).toInt = 1 from rfl]
  exact Int.bmod_eq_of_le (by omega) (by omega)

theorem toInt_add_one {sp : Int64} (h : 0 ≤ sp.toInt ∧ sp.toInt ≤ 16) :
    (sp + 1).toInt = sp.toInt + 1 := by
  rw [Int64.toInt_add, show (1 : Int64).toInt = 1 from rfl]
  exact Int.bmod_eq_of_le (by omega) (by omega)

theorem toInt_word (a : Word) :
    0 ≤ (Int64.ofNat a.toNat).toInt ∧ (Int64.ofNat a.toNat).toInt ≤ 65535 := by
  rw [toInt_ofNat_toNat (by decide)]
  omega

theorem seed'_ne_zero {r : Registers} (h : r.Valid) : r.seed' ≠ 0 := by
  refine nextSeed_ne_zero fun hzero => ?_
  have hmod := congrArg BitVec.toNat hzero
  obtain ⟨hlow, hhigh⟩ := h.seed
  rw [BitVec.toNat_ofInt] at hmod
  simp at hmod
  omega

/-- **A word that does not fail keeps the registers valid.** -/
theorem Valid.execute {r : Registers} (h : r.Valid) {word : Word} {outcome : Outcome}
    (hok : (r.execute word).1 = .ok outcome) : (r.execute word).2.Valid := by
  rcases r.execute_cases word with ⟨-, _, hex⟩ | ⟨-, _, hex⟩ | ⟨-, -, _, r', hex, -, hsp, hseed⟩
  · rw [hex, ret] at hok ⊢
    cases hk : slot? (r.sp - 1) with
    | none =>
      rw [hk] at hok
      cases hok
    | some k =>
      have hsp := toInt_slot? hk
      have hrange : 0 ≤ (r.sp - 1).toInt ∧ (r.sp - 1).toInt ≤ 16 := by omega
      exact ⟨hrange, h.seed⟩
  · rw [hex, callAt] at hok ⊢
    cases hk : slot? r.sp with
    | none =>
      rw [hk] at hok
      cases hok
    | some k =>
      have hsp := toInt_slot? hk
      have hup := toInt_add_one h.sp
      have hrange : 0 ≤ (r.sp + 1).toInt ∧ (r.sp + 1).toInt ≤ 16 := by omega
      exact ⟨hrange, h.seed⟩
  · rw [hex]
    refine ⟨by rw [hsp]; exact h.sp, ?_⟩
    rcases hseed with hseed | hseed
    · rw [hseed]
      exact h.seed
    · have hrange := toInt_word r.seed'
      have hne : (Int64.ofNat r.seed'.toNat).toInt ≠ 0 := by
        rw [toInt_ofNat_toNat (by decide)]
        exact_mod_cast fun h0 => seed'_ne_zero h (BitVec.eq_of_toNat_eq h0)
      rw [hseed]
      omega

/-- **The only words that fail**, and what they leave. -/
theorem execute_eq_error {r : Registers} {word : Word} {err : ProcessorError}
    (h : (r.execute word).1 = .error err) :
    (word = 0x00ee ∧ slot? (r.sp - 1) = none ∧
      err = .run word (.unknownPath [.name "stack", .index (r.sp - 1)]) ∧
      (r.execute word).2 = { r with sp := r.sp - 1 }) ∨
    (word &&& 0xf000 = 0x2000 ∧ slot? r.sp = none ∧
      err = .run word (.unknownPath [.name "stack", .index r.sp]) ∧ (r.execute word).2 = r) := by
  rcases r.execute_cases word with ⟨hword, _, hex⟩ | ⟨hword, _, hex⟩ | ⟨-, -, _, r', hex, -⟩
  · rw [hex, ret] at h
    cases hk : slot? (r.sp - 1) with
    | none =>
      rw [hk] at h
      cases h
      exact Or.inl ⟨hword, rfl, rfl, by rw [hex, ret, hk]; rfl⟩
    | some k =>
      rw [hk] at h
      cases h
  · rw [hex, callAt] at h
    cases hk : slot? r.sp with
    | none =>
      rw [hk] at h
      cases h
      exact Or.inr ⟨hword, rfl, rfl, by rw [hex, callAt, hk]; rfl⟩
    | some k =>
      rw [hk] at h
      cases h
  · rw [hex] at h
    cases h

/-- **When a word fails**: a return without a place below the stack pointer, and a call without a
place at it. -/
theorem exists_error_iff (r : Registers) (word : Word) :
    (∃ err, (r.execute word).1 = .error err) ↔
      (word = 0x00ee ∧ slot? (r.sp - 1) = none) ∨
      (word &&& 0xf000 = 0x2000 ∧ slot? r.sp = none) := by
  constructor
  · rintro ⟨err, herr⟩
    rcases execute_eq_error herr with ⟨hword, hslot, -⟩ | ⟨hword, hslot, -⟩
    · exact Or.inl ⟨hword, hslot⟩
    · exact Or.inr ⟨hword, hslot⟩
  · rcases r.execute_cases word with ⟨rfl, _, hex⟩ | ⟨hcall, _, hex⟩ | ⟨hret, hcall, -⟩
    · rintro (⟨-, hslot⟩ | ⟨hword, -⟩)
      · rw [hex, ret, hslot]
        exact ⟨_, rfl⟩
      · exact absurd hword (by decide)
    · rintro (⟨rfl, -⟩ | ⟨-, hslot⟩)
      · exact absurd hcall (by decide)
      · rw [hex, callAt, hslot]
        exact ⟨_, rfl⟩
    · rintro (⟨hword, -⟩ | ⟨hword, -⟩)
      · exact absurd hword hret
      · exact absurd hword hcall

theorem Valid.run {r : Registers} (h : r.Valid) {words : List Word}
    (hok : ∀ outcome ∈ (r.run words).1, ∃ o, outcome = .ok o) : (r.run words).2.Valid := by
  induction words generalizing r with
  | nil => exact h
  | cons word words ih =>
    obtain ⟨⟨o, ho⟩, hrest⟩ := List.forall_mem_cons.mp hok
    exact ih (h.execute ho) hrest

theorem Valid.execute_error_iff {r : Registers} (h : r.Valid) (word : Word) :
    (∃ err, (r.execute word).1 = .error err) ↔
      (word = 0x00ee ∧ r.sp = 0) ∨ (word &&& 0xf000 = 0x2000 ∧ r.sp = 16) := by
  have hdown := toInt_sub_one h.sp
  have hsp := h.sp
  have heq : ∀ n : Int64, r.sp = n ↔ r.sp.toInt = n.toInt := fun n => Int64.toInt_inj.symm
  rw [heq 0, heq 16, show (0 : Int64).toInt = 0 from rfl, show (16 : Int64).toInt = 16 from rfl]
  rw [exists_error_iff, slot?_eq_none_iff, slot?_eq_none_iff]
  refine or_congr (and_congr_right fun _ => ?_) (and_congr_right fun _ => ?_) <;> omega

end Registers

/-! ## Machine states -/

/-- The registers at the start. -/
def start : Registers where
  v := Vector.replicate 16 0
  stack := Vector.replicate 16 0
  i := 0
  pc := 0x200
  sp := 0
  dt := 0
  st := 0
  seed := 0xace1

theorem initial_eq : initial = start.onto ∅ := by
  have hzeros : ∀ w, Cell.array (Array.replicate 16 (.int 0)) =
      wordCell (Vector.replicate 16 (0 : BitVec w)) := by
    intro w
    simp [wordCell, Value.ofWord]
  unfold initial Registers.onto Cells.setZeros start
  rw [← hzeros 8, ← hzeros 16]
  rfl

theorem valid_start : start.Valid :=
  ⟨by decide, by decide⟩

/-- An integer between two bounds stands behind the name. -/
def HoldsInt (c : Cells) (name : String) (low high : Int) : Prop :=
  ∃ n : Int64, c.get? name = some (.scalar (.int n)) ∧ low ≤ n.toInt ∧ n.toInt ≤ high

/-- An array of sixteen integers from zero to a bound stands behind the name. -/
def HoldsInts (c : Cells) (name : String) (high : Int) : Prop :=
  ∃ vs : Array Value, c.get? name = some (.array vs) ∧ vs.size = 16 ∧
    ∀ v ∈ vs, ∃ n : Int64, v = .int n ∧ 0 ≤ n.toInt ∧ n.toInt ≤ high

/-- The machine state has its names and no others, and each holds what it may. -/
structure WellFormed (c : Cells) : Prop where
  names : ∀ name, (c.get? name).isSome = true ↔ name ∈ partNames
  v : HoldsInts c "V" 255
  stack : HoldsInts c "stack" 65535
  i : HoldsInt c "I" 0 65535
  pc : HoldsInt c "pc" 0 65535
  sp : HoldsInt c "sp" 0 16
  dt : HoldsInt c "DT" 0 255
  st : HoldsInt c "ST" 0 255
  seed : HoldsInt c "seed" 1 65535

theorem holdsInts_words {w : Nat} {c : Cells} {name : String} {a : Vector (BitVec w) 16}
    (hw : w ≤ 32) (h : c.get? name = some (wordCell a)) : HoldsInts c name (2 ^ w - 1) := by
  refine ⟨_, h, by simp, fun v hv => ?_⟩
  obtain ⟨b, -, rfl⟩ := Array.mem_map.mp hv
  refine ⟨_, rfl, ?_⟩
  rw [toInt_ofNat_toNat hw]
  have hb : (b.toNat : Int) < 2 ^ w := by exact_mod_cast b.isLt
  omega

theorem HoldsInts.exists_wordCell {w : Nat} {c : Cells} {name : String} {high : Int}
    (h : HoldsInts c name high)
    (hword : ∀ n : Int64, 0 ≤ n.toInt → n.toInt ≤ high → ∃ a : BitVec w, .int n = Value.ofWord a) :
    ∃ a : Vector (BitVec w) 16, c.get? name = some (wordCell a) := by
  obtain ⟨vs, hvs, hsize, hall⟩ := h
  have hwords : ∀ v ∈ vs, ∃ a : BitVec w, v = .ofWord a := by
    intro v hv
    obtain ⟨n, rfl, hlow, hhigh⟩ := hall v hv
    exact hword n hlow hhigh
  choose! f hf using hwords
  refine ⟨⟨vs.map f, by rw [Array.size_map, hsize]⟩, ?_⟩
  have hback : ∀ v ∈ vs, (Value.ofWord ∘ f) v = id v := fun v hv => (hf v hv).symm
  rw [hvs, wordCell, Array.map_map, Array.map_congr_left hback, Array.map_id]

theorem holdsInt_word {w : Nat} {c : Cells} {name : String} {a : BitVec w} (hw : w ≤ 32)
    (h : c.get? name = some (.scalar (.ofWord a))) : HoldsInt c name 0 (2 ^ w - 1) := by
  refine ⟨_, h, ?_⟩
  rw [toInt_ofNat_toNat hw]
  have ha : (a.toNat : Int) < 2 ^ w := by exact_mod_cast a.isLt
  omega

theorem Registers.Valid.wellFormed {r : Registers} (h : r.Valid) : WellFormed (r.onto ∅) where
  names name := by
    constructor
    · intro hname
      by_contra hno
      rw [r.get?_onto_of_notMem ∅ hno, show (∅ : Cells).get? name = none from
        Cells.get?_empty name] at hname
      cases hname
    · intro hname
      simp only [partNames, List.mem_cons, List.not_mem_nil, or_false] at hname
      rcases hname with rfl | rfl | rfl | rfl | rfl | rfl | rfl | rfl <;> simp
  v := holdsInts_words (by decide) (r.get?_onto_v ∅)
  stack := holdsInts_words (by decide) (r.get?_onto_stack ∅)
  i := holdsInt_word (by decide) (r.get?_onto_i ∅)
  pc := holdsInt_word (by decide) (r.get?_onto_pc ∅)
  sp := ⟨_, r.get?_onto_sp ∅, h.sp⟩
  dt := holdsInt_word (by decide) (r.get?_onto_dt ∅)
  st := holdsInt_word (by decide) (r.get?_onto_st ∅)
  seed := ⟨_, r.get?_onto_seed ∅, h.seed⟩

theorem Registers.int?_sp (r : Registers) (c : Cells) : (r.onto c).int? "sp" = some r.sp := by
  rw [Cells.int?, Cells.scalar?, r.get?_onto_sp]
  rfl

/-! ## Runs from the start -/

section

variable {fresh : Processor Cells}

theorem recalls_fresh (h : processor = .ok fresh) : Recalls fresh (fun _ => False) fresh :=
  recalls_of_memo_eq (make_eq_ok_iff.mp h).2.1

theorem executeAll_initial (h : processor = .ok fresh) (words : List Word) :
    let run := fresh.executeAll initial words
    run.outcomes = (start.run words).1 ∧ run.state = (start.run words).2.onto ∅ ∧
      ∀ word, (run.processor.execute word run.state).outcome =
          ((start.run words).2.execute word).1 ∧
        (run.processor.execute word run.state).state =
          ((start.run words).2.execute word).2.onto ∅ := by
  intro run
  obtain ⟨houtcomes, hstate, seen, hseen⟩ := run_onto h (recalls_fresh h) words start ∅
  rw [← initial_eq] at houtcomes hstate hseen
  refine ⟨houtcomes, hstate, fun word => ?_⟩
  rw [hstate]
  exact execute_onto h hseen word _ ∅

end

/-- **From the start, words that do not fail keep the machine state well formed.** Then only a
return from an empty stack and a call on a full one fail, and that for want of a place on the
stack. -/
theorem executeAll_wellFormed (words : List Word) :
    ∃ fresh : Processor Cells, processor = .ok fresh ∧
      let run := fresh.executeAll initial words
      ((∀ outcome ∈ run.outcomes, ∃ o, outcome = .ok o) →
        WellFormed run.state ∧ ∀ word,
          let outcome := (run.processor.execute word run.state).outcome
          ((∃ err, outcome = .error err) ↔
            (word = 0x00ee ∧ run.state.int? "sp" = some 0) ∨
            (0x2000 ≤ word ∧ word ≤ 0x2fff ∧ run.state.int? "sp" = some 16)) ∧
          ∀ err, outcome = .error err → ∃ path, err = .run word (.unknownPath path)) := by
  obtain ⟨fresh, hfresh⟩ := exists_processor (σ := Cells)
  refine ⟨fresh, hfresh, ?_⟩
  intro run hok
  obtain ⟨houtcomes, hstate, hword⟩ := executeAll_initial hfresh words
  rw [show run.outcomes = _ from houtcomes] at hok
  have hvalid := valid_start.run hok
  refine ⟨by rw [hstate]; exact hvalid.wellFormed, fun word => ?_⟩
  obtain ⟨houtcome, -⟩ := hword word
  intro outcome
  have hoc : outcome = _ := houtcome
  have hsp : run.state.int? "sp" = some (start.run words).2.sp := by
    rw [hstate, Registers.int?_sp]
  rw [hoc, hsp, Option.some_inj, Option.some_inj, ← and_assoc, ← and_top_digit]
  refine ⟨hvalid.execute_error_iff word, fun err herr => ?_⟩
  rcases Registers.execute_eq_error herr with ⟨-, -, rfl, -⟩ | ⟨-, -, rfl, -⟩ <;> exact ⟨_, rfl⟩

theorem executeAll_call : ∃ fresh : Processor Cells, processor = .ok fresh ∧
    (∀ outcome ∈ (fresh.executeAll initial [0x2206]).outcomes, ∃ o, outcome = .ok o) ∧
    WellFormed (fresh.executeAll initial [0x2206]).state := by
  obtain ⟨fresh, hfresh, h⟩ := executeAll_wellFormed [0x2206]
  have hcall : ∀ outcome ∈ (fresh.executeAll initial [0x2206]).outcomes, ∃ o, outcome = .ok o := by
    rw [(executeAll_initial hfresh [0x2206]).1]
    intro outcome ho
    rw [List.mem_singleton.mp ho]
    cases hoc : (start.execute 0x2206).1 with
    | ok o => exact ⟨o, rfl⟩
    | error err =>
      rcases (valid_start.execute_error_iff 0x2206).mp ⟨err, hoc⟩ with ⟨hword, -⟩ | ⟨-, hsp⟩
      · exact absurd hword (by decide)
      · exact absurd hsp (by decide)
  exact ⟨fresh, hfresh, hcall, (h hcall).1⟩

/-! ## Words that fail -/

theorem start_ret : (start.execute 0x00ee).1 =
      .error (.run 0x00ee (.unknownPath [.name "stack", .index (-1)])) ∧
    (start.execute 0x00ee).2 = { start with sp := -1 } := by
  obtain ⟨err, herr⟩ := (start.exists_error_iff 0x00ee).mpr (Or.inl ⟨rfl, by decide⟩)
  rcases Registers.execute_eq_error herr with ⟨-, -, rfl, hsp⟩ | ⟨hword, -⟩
  · exact ⟨herr, hsp⟩
  · exact absurd hword (by decide)

theorem sub_one_ne (n : Int64) : n - 1 ≠ n := by
  grind

/-- **What a word that fails leaves.** A call leaves the machine state as it was. A return has
already moved the stack pointer down. -/
theorem state_of_error (words : List Word) (word : Word) :
    ∃ fresh : Processor Cells, processor = .ok fresh ∧
      let run := fresh.executeAll initial words
      let execution := run.processor.execute word run.state
      ∀ err, execution.outcome = .error err →
        (execution.state = run.state ↔ word ≠ 0x00ee) ∧
        (word = 0x00ee → ∃ sp, run.state.int? "sp" = some sp ∧
          execution.state = run.state.setScalar "sp" (.int (sp - 1))) := by
  obtain ⟨fresh, hfresh⟩ := exists_processor (σ := Cells)
  refine ⟨fresh, hfresh, ?_⟩
  obtain ⟨-, hstate, hword⟩ := executeAll_initial hfresh words
  obtain ⟨houtcome, hleft⟩ := hword word
  intro run execution err herr
  have hrun : run.state = _ := hstate
  have hexecution : execution.state = _ := hleft
  rw [show execution.outcome = _ from houtcome] at herr
  rw [hexecution, hrun]
  rcases Registers.execute_eq_error herr with ⟨rfl, -, -, hsp⟩ | ⟨hcall, -, -, hkeep⟩
  · rw [hsp]
    refine ⟨iff_of_false (fun heq => ?_) (fun hne => hne rfl),
      fun _ => ⟨_, Registers.int?_sp _ ∅, (Registers.set_sp _).symm⟩⟩
    have hint := congrArg (Cells.int? · "sp") heq
    simp only [Registers.int?_sp, Option.some_inj] at hint
    exact sub_one_ne _ hint
  · have hne : word ≠ 0x00ee := by
      rintro rfl
      exact absurd hcall (by decide)
    rw [hkeep]
    exact ⟨iff_of_true rfl hne, fun heq => absurd heq hne⟩

/-- A call after a return from the empty stack fails too, and leaves the state as that left it. -/
theorem state_of_call_after_ret : ∃ fresh : Processor Cells, processor = .ok fresh ∧
    let run := fresh.executeAll initial [0x00ee]
    (∃ err, (run.processor.execute 0x2206 run.state).outcome = .error err) ∧
      (run.processor.execute 0x2206 run.state).state = run.state := by
  obtain ⟨fresh, hfresh, h⟩ := state_of_error [0x00ee] 0x2206
  obtain ⟨houtcome, -⟩ := (executeAll_initial hfresh [0x00ee]).2.2 0x2206
  have hslot : Registers.slot? (start.run [0x00ee]).2.sp = none := by
    rw [show (start.run [0x00ee]).2 = { start with sp := -1 } from start_ret.2]
    decide
  obtain ⟨err, herr⟩ := (Registers.exists_error_iff _ 0x2206).mpr (Or.inr ⟨by decide, hslot⟩)
  have hfails := houtcome.trans herr
  exact ⟨fresh, hfresh, ⟨err, hfails⟩, (h err hfails).1.mpr (by decide)⟩

theorem state_of_ret : ∃ fresh : Processor Cells, processor = .ok fresh ∧
    (fresh.execute 0x00ee initial).outcome =
      .error (.run 0x00ee (.unknownPath [.name "stack", .index (-1)])) ∧
    initial.int? "sp" = some 0 ∧ (fresh.execute 0x00ee initial).state.int? "sp" = some (-1) ∧
    (fresh.execute 0x00ee initial).state ≠ initial := by
  obtain ⟨fresh, hfresh⟩ := exists_processor (σ := Cells)
  obtain ⟨-, -, hword⟩ := executeAll_initial hfresh []
  obtain ⟨houtcome, hstate⟩ :
      (fresh.execute 0x00ee initial).outcome = (start.execute 0x00ee).1 ∧
        (fresh.execute 0x00ee initial).state = (start.execute 0x00ee).2.onto ∅ := hword 0x00ee
  have hbefore : initial.int? "sp" = some 0 := by
    rw [initial_eq, Registers.int?_sp]
    rfl
  obtain ⟨houtcome', hstate'⟩ := start_ret
  have hafter : (fresh.execute 0x00ee initial).state.int? "sp" = some (-1) := by
    rw [hstate, hstate', Registers.int?_sp]
  refine ⟨fresh, hfresh, houtcome.trans houtcome', hbefore, hafter, fun heq => ?_⟩
  rw [heq, hbefore] at hafter
  exact absurd hafter (by decide)

end Isa16.Chip8
