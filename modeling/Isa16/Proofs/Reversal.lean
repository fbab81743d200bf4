import Isa16.Proofs.Extremes
import Isa16.Proofs.Program.WordShifts

/-!
# Bits in the opposite order

* `Bits.SwapStage.Pairs`: a stage pairs off the places of a word, each with the one that differs
  from it in the stage's bit only. `Bits.getLsbD_swapGroups`: swapping takes every bit to its
  partner.
* `Bits.getLsbD_reverse`: all stages together take every bit to its mirror image.
* `Bits.reverse_shiftLeft`, `Bits.reverse_rotateLeft`, `Bits.lowest_reverse_add_highest`: the other
  operations on words in the mirror.
* **`Bits.reversalLaws`**: so it is for bytes and for words of sixteen bits.
-/

namespace Isa16

namespace Bits

variable {w : Nat}

/-! ## Stages -/

/-- The stage pairs off the places of a word: one in a lower group goes with the one so many places
above it, which is in no lower group, and the other way round. -/
def SwapStage.Pairs (w : Nat) (stage : SwapStage) : Prop :=
  ∀ i < w, i ^^^ stage.shift < w ∧
    if stage.lower.getLsbD i then
      i ^^^ stage.shift = i + stage.shift ∧ stage.lower.getLsbD (i ^^^ stage.shift) = false
    else (i ^^^ stage.shift) + stage.shift = i ∧ stage.lower.getLsbD (i ^^^ stage.shift) = true

instance (w : Nat) (stage : SwapStage) : Decidable (stage.Pairs w) :=
  inferInstanceAs (Decidable (∀ i < w, i ^^^ stage.shift < w ∧ ite _ _ _))

theorem getLsbD_swapGroups {stage : SwapStage} (h : stage.Pairs w) (a : BitVec w) {i : Nat}
    (hi : i < w) : (swapGroups stage a).getLsbD i = a.getLsbD (i ^^^ stage.shift) := by
  obtain ⟨-, hside⟩ := h i hi
  simp only [swapGroups, BitVec.getLsbD_or, BitVec.getLsbD_and, BitVec.getLsbD_ushiftRight,
    BitVec.getLsbD_shiftLeft, BitVec.getLsbD_setWidth, hi, decide_true, Bool.true_and]
  split at hside
  next hlower =>
    -- what comes up from below is no bit of a lower group: its partner would be in none
    have hbelow : stage.shift ≤ i → stage.lower.getLsbD (i - stage.shift) = false := by
      intro hle
      obtain ⟨-, hside'⟩ := h (i - stage.shift) (by omega)
      by_contra hc
      rw [Bool.not_eq_false] at hc
      rw [if_pos hc, Nat.sub_add_cancel hle] at hside'
      rw [hside'.1, hlower] at hside'
      cases hside'.2
    rw [hside.1, hlower, Bool.and_true, Nat.add_comm]
    by_cases hle : stage.shift ≤ i
    · simp [hbelow hle]
    · simp [Nat.lt_of_not_le hle]
  next hupper =>
    obtain ⟨hsub, hlower⟩ := hside
    have hle : stage.shift ≤ i := by omega
    have hpartner : i - stage.shift = i ^^^ stage.shift := by omega
    rw [hpartner, hlower, Bool.eq_false_iff.mpr hupper]
    simp [Nat.not_lt.mpr hle, (h i hi).1]

theorem getLsbD_foldl_swapGroups {stages : List SwapStage} (h : ∀ stage ∈ stages, stage.Pairs w)
    (a : BitVec w) {i : Nat} (hi : i < w) :
    stages.foldr (fun stage i => i ^^^ stage.shift) i < w ∧
      (stages.foldl (fun a stage => swapGroups stage a) a).getLsbD i =
        a.getLsbD (stages.foldr (fun stage i => i ^^^ stage.shift) i) := by
  induction stages generalizing a with
  | nil => exact ⟨hi, rfl⟩
  | cons stage stages ih =>
    obtain ⟨hlt, hbit⟩ := ih (fun s hs => h s (List.mem_cons_of_mem _ hs)) (swapGroups stage a)
    have hpairs := h stage List.mem_cons_self
    refine ⟨(hpairs _ hlt).1, ?_⟩
    rw [List.foldl_cons, hbit, getLsbD_swapGroups hpairs a hlt, List.foldr_cons]

/-- **Every bit goes to its mirror image.** -/
theorem getLsbD_reverse (hw : w = 8 ∨ w = 16) (a : BitVec w) {i : Nat} (hi : i < w) :
    (reverse a).getLsbD i = a.getLsbD (w - 1 - i) := by
  have hpairs : ∀ stage ∈ swapStages.takeWhile (·.shift < w), stage.Pairs w := by
    rcases hw with rfl | rfl <;> decide
  have hmirror : ∀ i < w, (swapStages.takeWhile (·.shift < w)).foldr
      (fun stage i => i ^^^ stage.shift) i = w - 1 - i := by
    rcases hw with rfl | rfl <;> decide
  rw [reverse, (getLsbD_foldl_swapGroups hpairs a hi).2, hmirror i hi]

/-! ## The mirror -/

theorem reverse_shiftLeft (hw : w = 8 ∨ w = 16) (a : BitVec w) (n : Nat) :
    reverse (shiftLeft a n) = shiftRight (reverse a) n := by
  refine BitVec.eq_of_getLsbD_eq fun i hi => ?_
  rw [getLsbD_reverse hw _ hi]
  unfold shiftLeft shiftRight
  split_ifs with hn
  · rw [BitVec.getLsbD_shiftLeft, BitVec.getLsbD_ushiftRight]
    by_cases hin : n + i < w
    · have hplace : w - 1 - i - n = w - 1 - (n + i) := by omega
      rw [getLsbD_reverse hw _ hin, decide_eq_true (by omega : w - 1 - i < w),
        decide_eq_false (by omega : ¬ w - 1 - i < n), hplace]
      rfl
    · have hout : (reverse a).getLsbD (n + i) = false := BitVec.getLsbD_of_ge _ _ (by omega)
      rw [hout, decide_eq_true (by omega : w - 1 - i < n)]
      simp
  · simp

theorem reverse_rotateLeft (hw : w = 8 ∨ w = 16) (a : BitVec w) (n : Nat) :
    reverse (rotateLeft a n) = rotateRight (reverse a) n := by
  refine BitVec.eq_of_getLsbD_eq fun i hi => ?_
  have hround : (i + n) % w < w := Nat.mod_lt _ (by omega)
  have hback : (w - 1 - (i + n) % w + n) % w = w - 1 - i := by
    rcases hw with rfl | rfl <;> omega
  rw [getLsbD_reverse hw _ hi, getLsbD_rotateRight n hi, getLsbD_reverse hw _ hround, ← hback,
    getLsbD_rotateLeft n (by omega)]

theorem lowest_reverse_add_highest (hw : w = 8 ∨ w = 16) {a : BitVec w} (ha : a ≠ 0) :
    lowest (reverse a) + highest a = w - 1 := by
  have hhighest : a.getLsbD (highest a) = true := getLsbD_highest ha
  have hlt : highest a < w := BitVec.lt_of_getLsbD hhighest
  have himage : (reverse a).getLsbD (w - 1 - highest a) = true := by
    rw [getLsbD_reverse hw a (by omega), Nat.sub_sub_self (by omega), hhighest]
  have hne : reverse a ≠ 0 := by
    intro hz
    simp [hz] at himage
  have hlowest := getLsbD_lowest hne
  have hle : lowest (reverse a) ≤ w - 1 - highest a := lowest_le himage
  have hge : w - 1 - lowest (reverse a) ≤ highest a := by
    refine le_highest ?_
    rwa [getLsbD_reverse hw a (by omega)] at hlowest
  omega

/-- Reversal is a mirror for the words of a width: bits, shifts and rotations by any count, and the
extreme bits. -/
structure ReversalLaws (w : Nat) : Prop where
  bit : ∀ (a : BitVec w) {i : Nat}, i < w → (reverse a).getLsbD i = a.getLsbD (w - 1 - i)
  shift : ∀ (a : BitVec w) (n : Nat), reverse (shiftLeft a n) = shiftRight (reverse a) n
  rotation : ∀ (a : BitVec w) (n : Nat), reverse (rotateLeft a n) = rotateRight (reverse a) n
  extremes : ∀ {a : BitVec w}, a ≠ 0 → lowest (reverse a) + highest a = w - 1

/-- **Reversal mirrors the other operations**, on bytes and on words of sixteen bits. -/
theorem reversalLaws : ReversalLaws 8 ∧ ReversalLaws 16 := by
  have laws : ∀ {w : Nat}, w = 8 ∨ w = 16 → ReversalLaws w := fun hw =>
    ⟨fun a _ hi => getLsbD_reverse hw a hi, reverse_shiftLeft hw, reverse_rotateLeft hw,
      lowest_reverse_add_highest hw⟩
  exact ⟨laws (Or.inl rfl), laws (Or.inr rfl)⟩

example : reverse (rotateLeft 0x81 0xffffffff : BitVec 8) = 0x03 := by decide

end Bits

end Isa16
