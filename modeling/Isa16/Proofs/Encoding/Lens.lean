import Isa16.Proofs.Encoding.RoundTrip

/-!
# Fields as lenses

* `Field.Fits`: a right-aligned value has no bit outside the field. `Field.trySet_eq_ok_iff` says
  when a value is written.
* `Field.set_get`, `Field.set_set`, `Field.set_and_not_mask`: beside `Field.get_set`, what writing
  one field does.
* `Field.get_set_of_apart`, `Field.set_comm`: fields without a common position are independent.
* **`Field.trySet_lens`**: writing a field that the value fits, and reading it, obey the laws of a
  lens.
-/

namespace Isa16

namespace Field

variable {f g : Field} {u v w r : Word}

/-- The right-aligned value has no bit outside the field. -/
def Fits (f : Field) (v : Word) : Prop :=
  ∀ i, v.getLsbD i = true → f.valueMask.getLsbD i = true

theorem fits_iff : f.Fits v ↔ v &&& ~~~f.valueMask = 0 := by
  constructor
  · intro h
    refine BitVec.eq_of_getLsbD_eq fun i hi => ?_
    rw [BitVec.getLsbD_and, BitVec.getLsbD_not, decide_eq_true hi, Bool.true_and]
    refine Eq.trans ?_ BitVec.getLsbD_zero.symm
    cases hv : v.getLsbD i with
    | false => rfl
    | true => rw [h i hv, Bool.not_true, Bool.and_false]
  · intro h i hv
    have hi : i < 16 := BitVec.lt_of_getLsbD hv
    have hbit := congrArg (BitVec.getLsbD · i) h
    simpa [hv, hi] using hbit

theorem Fits.and_valueMask (h : f.Fits v) : v &&& f.valueMask = v :=
  (subset_iff_and_eq (f := ⟨v⟩) (g := ⟨f.valueMask⟩)).mp h

theorem fits_get (f : Field) (w : Word) : f.Fits (f.get w) := by
  intro i h
  rw [getLsbD_get, Bool.and_eq_true] at h
  rw [getLsbD_valueMask]
  exact h.2

/-- **A value is written exactly if it fits.** -/
theorem trySet_eq_ok_iff : f.trySet v w = .ok r ↔ f.Fits v ∧ r = f.set v w := by
  rw [fits_iff, trySet]
  split_ifs with h
  · rw [Except.ok.injEq, eq_comm, and_iff_right h]
  · exact iff_of_false (fun h => by cases h) fun hr => h hr.1

/-! ## One field -/

theorem set_get (f : Field) (w : Word) : f.set (f.get w) w = w := by
  refine BitVec.eq_of_getLsbD_eq fun i _ => ?_
  rw [getLsbD_set]
  split
  next hi =>
    have hl : f.lowest + (i - f.lowest) = i := Nat.add_sub_cancel' (Bits.lowest_le hi)
    rw [getLsbD_get, hl, hi, Bool.and_true]
  next => rfl

theorem set_set (f : Field) (u v w : Word) : f.set u (f.set v w) = f.set u w := by
  refine BitVec.eq_of_getLsbD_eq fun i _ => ?_
  rw [getLsbD_set, getLsbD_set, getLsbD_set]
  split <;> rfl

theorem set_and_not_mask (f : Field) (v w : Word) :
    f.set v w &&& ~~~f.mask = w &&& ~~~f.mask := by
  refine BitVec.eq_of_getLsbD_eq fun i _ => ?_
  rw [BitVec.getLsbD_and, BitVec.getLsbD_and, BitVec.getLsbD_not, getLsbD_set]
  split
  next hi => rw [hi, Bool.not_true, Bool.and_false, Bool.and_false, Bool.and_false]
  next => rfl

/-! ## Two fields -/

theorem get_set_of_apart (h : f.Apart g) (v w : Word) : g.get (f.set v w) = g.get w := by
  rw [get, get, set_and_mask h]

/-- **Writes to fields without a common position commute.** -/
theorem set_comm (h : f.Apart g) (u v w : Word) :
    g.set u (f.set v w) = f.set v (g.set u w) := by
  refine BitVec.eq_of_getLsbD_eq fun i _ => ?_
  rw [getLsbD_set, getLsbD_set, getLsbD_set, getLsbD_set]
  cases hf : f.mask.getLsbD i with
  | false => rfl
  | true => rw [h.getLsbD hf]; rfl

/-- **A field is a lens on the word.** A value is written exactly if it fits; then it is read back,
the rest of the word stays, and a second write replaces it. Writing what is read changes nothing.
Fields without a common position do not see each other, and their writes commute, also those that
drop what does not fit. -/
theorem trySet_lens (f : Field) (w : Word) :
    (∀ v, (∃ r, f.trySet v w = .ok r) ↔ f.Fits v) ∧
      (∀ v r, f.trySet v w = .ok r → f.get r = v ∧ r &&& ~~~f.mask = w &&& ~~~f.mask ∧
        ∀ u, f.trySet u r = f.trySet u w) ∧
      f.trySet (f.get w) w = .ok w ∧
      ∀ g : Field, f.mask &&& g.mask = 0 →
        (∀ v r, f.trySet v w = .ok r → g.get r = g.get w ∧ ∀ u s, g.trySet u w = .ok s →
          ∃ t, g.trySet u r = .ok t ∧ f.trySet v s = .ok t) ∧
        ∀ u v, g.get (f.set v w) = g.get w ∧ g.set u (f.set v w) = f.set v (g.set u w) := by
  refine ⟨fun v => ?_, fun v r hr => ?_, ?_, fun g hg => ?_⟩
  · simp only [trySet_eq_ok_iff, exists_and_left, exists_eq, and_true]
  · obtain ⟨hv, rfl⟩ := trySet_eq_ok_iff.mp hr
    refine ⟨?_, set_and_not_mask f v w, fun u => ?_⟩
    · rw [get_set, hv.and_valueMask]
    · rw [trySet, trySet, set_set]
  · exact trySet_eq_ok_iff.mpr ⟨fits_get f w, (set_get f w).symm⟩
  · have hapart := apart_iff.mpr hg
    refine ⟨fun v r hr => ?_, fun u v => ⟨get_set_of_apart hapart v w, set_comm hapart u v w⟩⟩
    obtain ⟨hv, rfl⟩ := trySet_eq_ok_iff.mp hr
    refine ⟨get_set_of_apart hapart v w, fun u s hs => ?_⟩
    obtain ⟨hu, rfl⟩ := trySet_eq_ok_iff.mp hs
    exact ⟨g.set u (f.set v w), trySet_eq_ok_iff.mpr ⟨hu, rfl⟩,
      trySet_eq_ok_iff.mpr ⟨hv, set_comm hapart u v w⟩⟩

/-- Two sparse fields that lie between each other. -/
theorem trySet_sparse :
    let f : Field := ⟨0x5a50⟩
    let g : Field := ⟨0x2504⟩
    f.mask &&& g.mask = 0 ∧ f.trySet 0x0481 0xffff = .ok 0xedbf ∧ f.get 0xedbf = 0x0481 ∧
      f.trySet 0x0125 0xedbf = f.trySet 0x0125 0xffff ∧ ¬ f.Fits 0x0002 ∧
      g.get 0xedbf = g.get 0xffff ∧ g.trySet 0x0800 0xffff = .ok 0xfafb ∧
      ∃ t, g.trySet 0x0800 0xedbf = .ok t ∧ f.trySet 0x0481 0xfafb = .ok t := by
  intro f g
  have hfg : f.mask &&& g.mask = 0 := by decide
  have hf : f.trySet 0x0481 0xffff = .ok 0xedbf :=
    trySet_eq_ok_iff.mpr ⟨fits_iff.mpr (by decide), by decide⟩
  have hg : g.trySet 0x0800 0xffff = .ok 0xfafb :=
    trySet_eq_ok_iff.mpr ⟨fits_iff.mpr (by decide), by decide⟩
  obtain ⟨hfits, hone, -, htwo⟩ := trySet_lens f 0xffff
  obtain ⟨hread, -, hagain⟩ := hone _ _ hf
  obtain ⟨hother, hcomm⟩ := (htwo g hfg).1 _ _ hf
  refine ⟨hfg, hf, hread, hagain _, fun h => ?_, hother, hg, hcomm _ _ hg⟩
  obtain ⟨r, hr⟩ := (hfits _).mpr h
  exact absurd (trySet_eq_ok_iff.mp hr).1 (mt fits_iff.mp (by decide))

end Field

end Isa16
