import Isa16.Encoding.Operation
import Mathlib.Tactic

/-!
# The ends of a mask

* `Bits.getLsbD_lowest`, `Bits.lowest_le`: the lowest set bit of a word that is not zero.
* `Bits.getLsbD_highest`, `Bits.le_highest`: the highest one.
* `Field.IsSubset`: all positions of one field are positions of another; the ends of the smaller
  field lie between those of the larger (`Field.IsSubset.lowest_le`, `Field.IsSubset.highest_le`).
* **`Field.IsSubset.width_eq_iff`**: of two nested fields, neither empty, the spans are equal only
  when both ends are.
-/

namespace Isa16

/-! ## Extreme set bits -/

namespace Bits

variable {w : Nat} {a : BitVec w} {i : Nat}

theorem exists_getLsbD (h : a ≠ 0) : ∃ i < w, a.getLsbD i = true := by
  by_contra hc
  push Not at hc
  refine h (BitVec.eq_of_getLsbD_eq fun i hi => ?_)
  rw [Bool.eq_false_iff.mpr (hc i hi)]
  simp

theorem lowest_eq_of_find? (h : (List.range w).find? a.getLsbD = some i) : lowest a = i := by
  rw [lowest, h, Option.getD_some]

theorem find?_getLsbD (h : a.getLsbD i = true) :
    ∃ j ≤ i, (List.range w).find? a.getLsbD = some j ∧ a.getLsbD j = true := by
  have hi : i < w := BitVec.lt_of_getLsbD h
  cases hf : (List.range w).find? a.getLsbD with
  | none => exact absurd h (List.find?_eq_none.mp hf i (List.mem_range.mpr hi))
  | some j =>
    obtain ⟨hj, -, hlt⟩ := List.find?_range_eq_some.mp hf
    refine ⟨j, ?_, rfl, hj⟩
    by_contra hc
    have := hlt i (by omega)
    simp [h] at this

theorem getLsbD_lowest (h : a ≠ 0) : a.getLsbD (lowest a) = true := by
  obtain ⟨i, -, hi⟩ := exists_getLsbD h
  obtain ⟨j, -, hf, hj⟩ := find?_getLsbD hi
  rwa [lowest_eq_of_find? hf]

/-- No set position is below the lowest. -/
theorem lowest_le (h : a.getLsbD i = true) : lowest a ≤ i := by
  obtain ⟨j, hji, hf, -⟩ := find?_getLsbD h
  rwa [lowest_eq_of_find? hf]

theorem toNat_ne_zero (h : a ≠ 0) : a.toNat ≠ 0 := fun hc =>
  h (BitVec.eq_of_toNat_eq (by simpa using hc))

theorem getLsbD_highest (h : a ≠ 0) : a.getLsbD (highest a) = true :=
  Nat.testBit_log2 (toNat_ne_zero h)

/-- No set position is above the highest. -/
theorem le_highest (h : a.getLsbD i = true) : i ≤ highest a := by
  have ha : a.toNat ≠ 0 := by
    intro hc
    rw [BitVec.getLsbD, hc, Nat.zero_testBit] at h
    cases h
  exact (Nat.le_log2 ha).mpr (Nat.ge_two_pow_of_testBit h)

theorem lowest_le_highest (h : a ≠ 0) : lowest a ≤ highest a :=
  lowest_le (getLsbD_highest h)

end Bits

/-! ## Nested fields -/

namespace Field

/-- Every position of the one field is a position of the other. -/
def IsSubset (f g : Field) : Prop :=
  ∀ i, f.mask.getLsbD i = true → g.mask.getLsbD i = true

instance : HasSubset Field :=
  ⟨IsSubset⟩

instance : HasSSubset Field :=
  ⟨fun f g => f ⊆ g ∧ ¬ g ⊆ f⟩

variable {f g : Field}

theorem subset_iff_and_eq : f ⊆ g ↔ f.mask &&& g.mask = f.mask := by
  constructor
  · intro h
    refine BitVec.eq_of_getLsbD_eq fun i _ => ?_
    rw [BitVec.getLsbD_and]
    cases hf : f.mask.getLsbD i with
    | false => rfl
    | true => rw [h i hf, Bool.and_true]
  · intro h i hi
    rw [← h, BitVec.getLsbD_and, Bool.and_eq_true] at hi
    exact hi.2

instance : DecidableRel (· ⊆ · : Field → Field → Prop) := fun _ _ =>
  decidable_of_iff _ subset_iff_and_eq.symm

instance : DecidableRel (· ⊂ · : Field → Field → Prop) := fun f g =>
  inferInstanceAs (Decidable (f ⊆ g ∧ ¬ g ⊆ f))

theorem width_of_ne (h : f.mask ≠ 0) : f.width = f.highest - f.lowest + 1 := by
  rw [width, if_neg (by simpa [isEmpty] using h)]

theorem IsSubset.lowest_le (h : f ⊆ g) (hf : f.mask ≠ 0) : g.lowest ≤ f.lowest :=
  Bits.lowest_le (h _ (Bits.getLsbD_lowest hf))

theorem IsSubset.highest_le (h : f ⊆ g) (hf : f.mask ≠ 0) : f.highest ≤ g.highest :=
  Bits.le_highest (h _ (Bits.getLsbD_highest hf))

theorem IsSubset.ne_zero (h : f ⊆ g) (hf : f.mask ≠ 0) : g.mask ≠ 0 := by
  intro hg
  have := h _ (Bits.getLsbD_lowest hf)
  simp [hg] at this

theorem IsSubset.width_le (h : f ⊆ g) (hf : f.mask ≠ 0) : f.width ≤ g.width := by
  have hl := h.lowest_le hf
  have hh := h.highest_le hf
  rw [width_of_ne hf, width_of_ne (h.ne_zero hf)]
  omega

/-- **Nested fields of one span have the same ends.** -/
theorem IsSubset.width_eq_iff (h : f ⊆ g) (hf : f.mask ≠ 0) :
    f.width = g.width ↔ f.lowest = g.lowest ∧ f.highest = g.highest := by
  have hl := h.lowest_le hf
  have hh := h.highest_le hf
  have hlh : f.lowest ≤ f.highest := Bits.lowest_le_highest hf
  rw [width_of_ne hf, width_of_ne (h.ne_zero hf)]
  omega

end Field

theorem Operation.fixed_ne (op : Operation) : op.fixed.mask ≠ 0 :=
  op.remainingBits_ne

end Isa16
