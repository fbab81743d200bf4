import Isa16.Proofs.Program.WordCalls

/-!
# Shifts and rotations by counts

* `Bits.toNat_shiftLeft`, `Bits.toNat_shiftRight`: shifts as products and quotients, by any count.
* `Bits.getLsbD_rotateLeft`, `Bits.getLsbD_rotateRight`: where rotations take the bits.
* `onWordCount_of_isWord`: what a function of a word and a count makes of every count.
* `ShiftLaws`: what is asked of shifts and rotations by every count that is not negative.
* **`shiftLaws_iff`**: it holds of the counts of 32 bits only; the others are refused.
-/

namespace Isa16

variable {σ : Type} {w : Nat}

/-! ## Bits -/

namespace Bits

variable (a : BitVec w) (n : Nat)

theorem toNat_shiftLeft : (shiftLeft a n).toNat = a.toNat * 2 ^ n % 2 ^ w := by
  unfold shiftLeft
  split_ifs with h
  · rw [BitVec.toNat_shiftLeft, Nat.shiftLeft_eq]
  · have hdvd : 2 ^ w ∣ a.toNat * 2 ^ n := Dvd.dvd.mul_left (Nat.pow_dvd_pow 2 (not_lt.mp h)) _
    rw [Nat.mod_eq_zero_of_dvd hdvd]
    rfl

theorem toNat_shiftRight : (shiftRight a n).toNat = a.toNat / 2 ^ n := by
  unfold shiftRight
  split_ifs with h
  · rw [BitVec.toNat_ushiftRight, Nat.shiftRight_eq_div_pow]
  · have hpow : 2 ^ w ≤ 2 ^ n := Nat.pow_le_pow_right Nat.two_pos (not_lt.mp h)
    rw [Nat.div_eq_of_lt (a.isLt.trans_le hpow)]
    rfl

variable {a}

theorem getLsbD_rotateLeft {i : Nat} (hi : i < w) :
    (rotateLeft a n).getLsbD ((i + n) % w) = a.getLsbD i := by
  have hk : n % w < w := Nat.mod_lt n (by omega)
  rw [rotateLeft, BitVec.getLsbD_rotateLeft, Nat.mod_mod, Nat.add_mod, Nat.mod_eq_of_lt hi]
  generalize n % w = k at hk ⊢
  by_cases h : i + k < w
  · rw [Nat.mod_eq_of_lt h]
    simp [h]
  · rw [Nat.mod_eq_sub_mod (not_lt.mp h), Nat.mod_eq_of_lt (by omega),
      decide_eq_true (by omega : i + k - w < k), cond_true]
    congr 1
    omega

theorem getLsbD_rotateRight {i : Nat} (hi : i < w) :
    (rotateRight a n).getLsbD i = a.getLsbD ((i + n) % w) := by
  have hk : n % w < w := Nat.mod_lt n (by omega)
  rw [rotateRight, BitVec.getLsbD_rotateRight, Nat.mod_mod, Nat.add_mod, Nat.mod_eq_of_lt hi]
  generalize n % w = k at hk ⊢
  by_cases h : i + k < w
  · rw [Nat.mod_eq_of_lt h, decide_eq_true (by omega : i < w - k), cond_true, Nat.add_comm]
  · rw [Nat.mod_eq_sub_mod (not_lt.mp h), Nat.mod_eq_of_lt (by omega),
      decide_eq_false (by omega : ¬ i < w - k), cond_false, decide_eq_true hi, Bool.true_and]
    congr 1
    omega

theorem exists_add_mod_eq {i : Nat} (hi : i < w) : ∃ j < w, (j + n) % w = i := by
  have hk : n % w < w := Nat.mod_lt n (by omega)
  have hdiv := Nat.mod_add_div n w
  have hsum : i + (w - n % w) + n = i + w * (n / w + 1) := by
    rw [Nat.mul_add]
    omega
  refine ⟨(i + (w - n % w)) % w, Nat.mod_lt _ (by omega), ?_⟩
  rw [Nat.mod_add_mod, hsum, Nat.add_mul_mod_self_left, Nat.mod_eq_of_lt hi]

variable (a)

theorem rotateRight_rotateLeft : rotateRight (rotateLeft a n) n = a := by
  refine BitVec.eq_of_getLsbD_eq fun i hi => ?_
  rw [getLsbD_rotateRight n hi, getLsbD_rotateLeft n hi]

theorem rotateLeft_rotateRight : rotateLeft (rotateRight a n) n = a := by
  refine BitVec.eq_of_getLsbD_eq fun i hi => ?_
  obtain ⟨j, hj, rfl⟩ := exists_add_mod_eq n hi
  rw [getLsbD_rotateLeft n hj, getLsbD_rotateRight n hj]

end Bits

/-! ## Counts -/

/-- A function of a word and a count refuses the counts that are no 32-bit numbers. -/
theorem onWordCount_of_isWord {u v : Value} {a : BitVec w} (ha : u.IsWord a) {n : Int64}
    (hn : v.number? = some n) (f : BitVec w → Nat → BitVec w) (name : String) :
    onWordCount w f name [u, v] =
      if 0 ≤ n.toInt ∧ n.toInt < 2 ^ 32 then .ok (.ofWord (f a n.toInt.toNat))
      else .error (.argument name (.badCount n)) := by
  have hword : wordArgument w name [u, v] 0 = .ok a := wordArgument_eq_ok_iff.mpr ⟨u, rfl, ha⟩
  have harg : intArgument name [u, v] 1 = .ok n := intArgument_eq_ok_iff.mpr ⟨v, rfl, hn⟩
  unfold onWordCount countArgument
  rw [hword, harg]
  by_cases h : 0 ≤ n.toInt ∧ n.toInt < 2 ^ 32
  · rw [if_pos h]
    show (if Bits.fits 32 n.toInt = true then _ else _ : Except RunError Nat) >>= _ = _
    rw [if_pos (Bits.fits_iff.mpr h)]
    rfl
  · rw [if_neg h]
    show (if Bits.fits 32 n.toInt = true then _ else _ : Except RunError Nat) >>= _ = _
    rw [if_neg fun hfits => h (Bits.fits_iff.mp hfits)]
    rfl

theorem mem_shl (w : Nat) : ("shl", onWordCount w Bits.shiftLeft) ∈ wordFunctions w := by
  simp [wordFunctions]

theorem mem_shr (w : Nat) : ("shr", onWordCount w Bits.shiftRight) ∈ wordFunctions w := by
  simp [wordFunctions]

theorem mem_rotl (w : Nat) : ("rotl", onWordCount w Bits.rotateLeft) ∈ wordFunctions w := by
  simp [wordFunctions]

theorem mem_rotr (w : Nat) : ("rotr", onWordCount w Bits.rotateRight) ∈ wordFunctions w := by
  simp [wordFunctions]

/-- The functions of a word and a count. -/
def shiftNames : List String :=
  ["shl", "shr", "rotl", "rotr"]

theorem exists_onWordCount {name : String} (h : name ∈ shiftNames) :
    ∃ f, (name, onWordCount w f) ∈ wordFunctions w := by
  simp only [shiftNames, List.mem_cons, List.not_mem_nil, or_false] at h
  rcases h with rfl | rfl | rfl | rfl
  · exact ⟨_, mem_shl w⟩
  · exact ⟨_, mem_shr w⟩
  · exact ⟨_, mem_rotl w⟩
  · exact ⟨_, mem_rotr w⟩

/-- The shifts and rotations of a word by a count. By a count that is not negative a word is
multiplied or divided, or its bits go round, there and back. A negative count is refused. -/
def ShiftLaws (σ : Type) (u v : Value) (a : BitVec w) (n : Int64) : Prop :=
  let call (name : String) (word : Value) :=
    (arithmeticLibrary : Library σ).call? (name ++ toString w) [word, v]
  (∀ k : Nat, n.toInt = k → ∃ up down left right : BitVec w,
    call "shl" u = some (pure (.ofWord up)) ∧ up.toNat = a.toNat * 2 ^ k % 2 ^ w ∧
    call "shr" u = some (pure (.ofWord down)) ∧ down.toNat = a.toNat / 2 ^ k ∧
    call "rotl" u = some (pure (.ofWord left)) ∧
    (∀ i < w, left.getLsbD ((i + k) % w) = a.getLsbD i) ∧
    call "rotr" u = some (pure (.ofWord right)) ∧
    (∀ i < w, right.getLsbD i = a.getLsbD ((i + k) % w)) ∧
    call "rotr" (.ofWord left) = some (pure (.ofWord a)) ∧
    call "rotl" (.ofWord right) = some (pure (.ofWord a))) ∧
  (n.toInt < 0 → ∀ name ∈ shiftNames, ∃ fault,
    call name u = some (throw (.argument (name ++ toString w) fault)))

section

variable {u v : Value} {a : BitVec w} {n : Int64}

theorem call?_of_count (hw : w = 8 ∨ w = 16) (ha : u.IsWord a) (hn : v.number? = some n) {k : Nat}
    (hk : n.toInt = k) (hlt : n.toInt < 2 ^ 32) {name : String} {f : BitVec w → Nat → BitVec w}
    (h : (name, onWordCount w f) ∈ wordFunctions w) :
    (arithmeticLibrary : Library σ).call? (name ++ toString w) [u, v] =
      some (pure (.ofWord (f a k))) := by
  rw [call?_arithmeticLibrary hw h, onWordCount_of_isWord ha hn, if_pos ⟨by omega, hlt⟩, hk,
    Int.toNat_natCast]
  rfl

theorem call?_of_badCount (hw : w = 8 ∨ w = 16) (ha : u.IsWord a) (hn : v.number? = some n)
    (hbad : ¬ (0 ≤ n.toInt ∧ n.toInt < 2 ^ 32)) {name : String} (h : name ∈ shiftNames) :
    (arithmeticLibrary : Library σ).call? (name ++ toString w) [u, v] =
      some (throw (.argument (name ++ toString w) (.badCount n))) := by
  obtain ⟨f, hf⟩ := exists_onWordCount h
  rw [call?_arithmeticLibrary hw hf, onWordCount_of_isWord ha hn, if_neg hbad]
  rfl

theorem shiftLaws_of_lt (hw : w = 8 ∨ w = 16) (ha : u.IsWord a) (hn : v.number? = some n)
    (hlt : n.toInt < 2 ^ 32) : ShiftLaws σ u v a n := by
  have hle : w ≤ 32 := by omega
  refine ⟨fun k hk => ?_, fun hneg name hname => ⟨.badCount n, ?_⟩⟩
  · have hleft := Value.isWord_ofWord hle (Bits.rotateLeft a k)
    have hright := Value.isWord_ofWord hle (Bits.rotateRight a k)
    have hback := call?_of_count (σ := σ) hw hleft hn hk hlt (mem_rotr w)
    have hforth := call?_of_count (σ := σ) hw hright hn hk hlt (mem_rotl w)
    rw [Bits.rotateRight_rotateLeft] at hback
    rw [Bits.rotateLeft_rotateRight] at hforth
    exact ⟨_, _, _, _, call?_of_count hw ha hn hk hlt (mem_shl w), Bits.toNat_shiftLeft a k,
      call?_of_count hw ha hn hk hlt (mem_shr w), Bits.toNat_shiftRight a k,
      call?_of_count hw ha hn hk hlt (mem_rotl w), fun i hi => Bits.getLsbD_rotateLeft k hi,
      call?_of_count hw ha hn hk hlt (mem_rotr w), fun i hi => Bits.getLsbD_rotateRight k hi,
      hback, hforth⟩
  · exact call?_of_badCount hw ha hn (fun h => absurd h.1 (not_le.mpr hneg)) hname

/-- **Shifts and rotations obey their laws for the counts below `2 ^ 32`**, and for no others: these
are refused as if they were negative. -/
theorem shiftLaws_iff [Nonempty σ] (hw : w = 8 ∨ w = 16) (ha : u.IsWord a)
    (hn : v.number? = some n) : (ShiftLaws σ u v a n ↔ n.toInt < 2 ^ 32) ∧
      (2 ^ 32 ≤ n.toInt → ∀ name ∈ shiftNames,
        (arithmeticLibrary : Library σ).call? (name ++ toString w) [u, v] =
          some (throw (.argument (name ++ toString w) (.badCount n)))) := by
  have hbad : 2 ^ 32 ≤ n.toInt → ∀ name ∈ shiftNames, _ := fun hge name hname =>
    call?_of_badCount (σ := σ) hw ha hn (fun h => absurd h.2 (not_lt.mpr hge)) hname
  refine ⟨⟨fun h => ?_, shiftLaws_of_lt hw ha hn⟩, hbad⟩
  by_contra hge
  have hge := not_lt.mp hge
  obtain ⟨up, _, _, _, hup, -⟩ := h.1 n.toInt.toNat (by omega)
  have hcall := (hbad hge "shl" (by decide)).symm.trans hup
  obtain ⟨s⟩ := ‹Nonempty σ›
  have hresult := congrFun (Option.some_inj.mp hcall) s
  cases hresult

end

/-- The greatest count that is taken, far above the width. -/
theorem shiftLaws_greatest_count :
    (Value.int 0x81).IsWord (0x81 : BitVec 8) ∧
      (Value.int 0xffffffff).number? = some 0xffffffff ∧
      ShiftLaws Cells (.int 0x81) (.int 0xffffffff) (0x81 : BitVec 8) 0xffffffff := by
  have : Nonempty Cells := ⟨∅⟩
  have hword : (Value.int 0x81).IsWord (0x81 : BitVec 8) := ⟨_, rfl, by decide⟩
  exact ⟨hword, rfl, (shiftLaws_iff (Or.inl rfl) hword rfl).1.mpr (by decide)⟩

/-- The least count that is taken for a negative one. -/
theorem not_shiftLaws_two_pow :
    ¬ ShiftLaws Cells (.int 1) (.int 0x100000000) (1 : BitVec 8) 0x100000000 := by
  intro h
  obtain ⟨up, _, _, _, hup, -⟩ := h.1 (2 ^ 32) (by decide)
  have hword : (Value.int 1).IsWord (1 : BitVec 8) := ⟨_, rfl, by decide⟩
  have hcall := (call?_of_badCount (σ := Cells) (Or.inl rfl) hword rfl (by decide)
    (by decide : "shl" ∈ shiftNames)).symm.trans hup
  cases congrFun (Option.some_inj.mp hcall) ∅

end Isa16
