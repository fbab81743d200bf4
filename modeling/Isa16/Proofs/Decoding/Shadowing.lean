import Isa16.Proofs.Decoding.Dispatch

/-!
# Shadowed operations

Specificity is the span of the fixed bits, so an operation that fixes more bits need not be the
more specific one.

* `matchesWord_of_subset`: of two operations with nested fixed bits that share a word, the one with
  fewer matches every word of the other.
* **`lookup?_ne_iff_of_ssubset`**: when the one with fewer fixed bits is not the one that is found.
* `lookup?_ne_of_sameEnds`: with equal spans the later operation is never found.
* `lookup?_sparse_full`: fixed bits `0xF00F` in front of fixed bits `0xFFFF`.
-/

namespace Isa16

/-- Two fields have the same lowest and the same highest position. -/
def Field.SameEnds (f g : Field) : Prop :=
  f.lowest = g.lowest ∧ f.highest = g.highest

theorem specificity_eq_iff {a b : Operation} (h : a.fixed ⊆ b.fixed) :
    a.specificity = b.specificity ↔ a.fixed.SameEnds b.fixed :=
  Field.IsSubset.width_eq_iff h a.fixed_ne

theorem specificity_le {a b : Operation} (h : a.fixed ⊆ b.fixed) :
    a.specificity ≤ b.specificity :=
  Field.IsSubset.width_le h a.fixed_ne

theorem matchesWord_of_subset {a b : Operation} (h : a.fixed ⊆ b.fixed) {word : Word}
    (ha : a.matchesWord word = true) (hb : b.matchesWord word = true) {v : Word}
    (hv : b.matchesWord v = true) : a.matchesWord v = true := by
  rw [matchesWord_iff] at *
  have hand : b.fixed.mask &&& a.fixed.mask = a.fixed.mask := by
    rw [BitVec.and_comm]
    exact Field.subset_iff_and_eq.mp h
  rw [← hand, ← BitVec.and_assoc] at ha ⊢
  rw [hv, ← hb, ha]

/-! ## A sparse and a full mask -/

/-- Fixed bits `0xF00F`, all zero. -/
def sparseOperation : Operation :=
  ⟨"WIDE", 0, [⟨⟨0x0FF0⟩, .register, {}⟩], by decide, by decide, by decide, by decide⟩

/-- All sixteen bits fixed, all zero. -/
def fullOperation : Operation :=
  ⟨"FULL", 0, [], by decide, by decide, by decide, by decide⟩

/-! ## Which one is found -/

namespace InstructionSet

variable {s : InstructionSet} {word : Word} {a b : Candidate}

theorem precedes_iff_of_subset (h : a.operation.fixed ⊆ b.operation.fixed) :
    a.Precedes b ↔ a.operation.fixed.SameEnds b.operation.fixed ∧ a.index < b.index := by
  have hle := specificity_le h
  rw [Candidate.Precedes, specificity_eq_iff h]
  constructor
  · rintro (hlt | he)
    · omega
    · exact he
  · exact Or.inr

theorem lookup?_ne_of_sameEnds (ha : a ∈ s.candidates)
    (hma : a.operation.matchesWord word = true) (hmb : b.operation.matchesWord word = true)
    (h : a.operation.fixed ⊆ b.operation.fixed)
    (hends : a.operation.fixed.SameEnds b.operation.fixed) (hlt : a.index < b.index) (v : Word) :
    s.lookup? v ≠ some b := by
  intro hl
  have hmv := matchesWord_of_subset h hma hmb (lookup?_mem hl).2
  have hp : a.Precedes b := (precedes_iff_of_subset h).mpr ⟨hends, hlt⟩
  exact hp.asymm (precedes_of_lookup? hl ha hmv hp.ne)

/-- **When an operation does not shadow one with more fixed bits**: exactly if the ends of the fixed
bits differ, or it is declared later, or a third operation that matches goes before it. -/
theorem lookup?_ne_iff_of_ssubset (ha : a ∈ s.candidates) (hb : b ∈ s.candidates)
    (hma : a.operation.matchesWord word = true) (hmb : b.operation.matchesWord word = true)
    (h : a.operation.fixed ⊂ b.operation.fixed) :
    s.lookup? word ≠ some a ↔
      ¬ a.operation.fixed.SameEnds b.operation.fixed ∨ b.index < a.index ∨
        ∃ c ∈ s.candidates, c.operation.matchesWord word = true ∧ c ≠ a ∧ c ≠ b ∧
          c.Precedes a := by
  have hne : b ≠ a := by
    rintro rfl
    exact h.2 h.1
  have hidx : a.index ≠ b.index := fun hi => hne (eq_of_index_eq hb ha hi.symm)
  have hab := precedes_iff_of_subset h.1
  constructor
  · intro hl
    by_contra hc
    push Not at hc
    obtain ⟨hends, hle, hthird⟩ := hc
    refine hl (lookup?_eq_some_iff.mpr ⟨ha, hma, fun d hd hmd hda => ?_⟩)
    by_cases hdb : d = b
    · rw [hdb]
      exact hab.mpr ⟨hends, by omega⟩
    · rcases precedes_or_precedes ha hd (Ne.symm hda) with hp | hp
      · exact hp
      · exact absurd hp (hthird d hd hmd hda hdb)
  · intro hc hl
    have hp := hab.mp (precedes_of_lookup? hl hb hmb hne)
    rcases hc with hends | hlt | ⟨c, hcs, hmc, hca, -, hpc⟩
    · exact hends hp.1
    · omega
    · exact hpc.asymm (precedes_of_lookup? hl hcs hmc hca)

/-- In front of the sparse operation the full one is found. -/
theorem lookup?_full_sparse :
    let s := ofList [fullOperation, sparseOperation]
    ⟨1, sparseOperation⟩ ∈ s.candidates ∧ ⟨0, fullOperation⟩ ∈ s.candidates ∧
      sparseOperation.matchesWord 0 = true ∧ fullOperation.matchesWord 0 = true ∧
      sparseOperation.fixed ⊂ fullOperation.fixed ∧ s.lookup? 0 ≠ some ⟨1, sparseOperation⟩ := by
  intro s
  have ha : ⟨1, sparseOperation⟩ ∈ s.candidates := by decide
  have hb : ⟨0, fullOperation⟩ ∈ s.candidates := by decide
  refine ⟨ha, hb, by decide, by decide, by decide, ?_⟩
  exact (lookup?_ne_iff_of_ssubset ha hb (by decide) (by decide) (by decide)).mpr
    (Or.inr (Or.inl (by decide)))

/-- **An operation can shadow one with more fixed bits**: the sparse one in front of the full one
is found. -/
theorem lookup?_sparse_full :
    ¬ ∀ (s : InstructionSet) (word : Word) (a b : Candidate), a ∈ s.candidates →
      b ∈ s.candidates → a.operation.matchesWord word = true →
      b.operation.matchesWord word = true → a.operation.fixed ⊂ b.operation.fixed →
      s.lookup? word ≠ some a := by
  intro h
  refine h (ofList [sparseOperation, fullOperation]) 0 ⟨0, sparseOperation⟩ ⟨1, fullOperation⟩
    ?_ ?_ ?_ ?_ ?_ ?_
  · decide
  · decide
  · decide
  · decide
  · decide
  · decide

end InstructionSet

end Isa16
