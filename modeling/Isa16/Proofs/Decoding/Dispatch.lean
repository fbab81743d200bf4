import Isa16.Decoding.InstructionSet
import Isa16.Proofs.Extremes
import Mathlib

/-!
# Dispatch by common bits

* `commonBits_subset`: the common bits are fixed bits of every operation, so a word and the opcode
  of an operation it matches have one key (`keyUnder_eq_of_matchesWord`).
* `Candidate.Precedes`: the order of the candidates in a bucket. Buckets are in this order
  (`pairwise_bucket`) and hold the candidates of their key, each once (`bucket_perm`).
* `lookup?_eq_some_iff`, `lookup?_eq_none_iff`: a look-up in terms of all candidates.
* **`lookup?_ofDeclarations`**: a look-up agrees with a scan of the whole list.
-/

namespace Isa16

/-! ## Keys -/

theorem foldl_and_getLsbD {α : Type} (f : α → Word) (xs : List α) (bits : Word) (i : Nat) :
    (xs.foldl (fun bits x => bits &&& f x) bits).getLsbD i =
      (bits.getLsbD i && xs.all fun x => (f x).getLsbD i) := by
  induction xs generalizing bits with
  | nil => simp
  | cons x xs ih => rw [List.foldl_cons, ih, BitVec.getLsbD_and, List.all_cons, Bool.and_assoc]

theorem commonBits_subset {operations : List Operation} {op : Operation} (h : op ∈ operations) :
    (⟨commonBits operations⟩ : Field) ⊆ op.fixed := by
  intro i hi
  simp only [commonBits, foldl_and_getLsbD, Bool.and_eq_true, List.all_eq_true] at hi
  exact hi.2 op h

theorem matchesWord_iff {op : Operation} {word : Word} :
    op.matchesWord word = true ↔ word &&& op.fixed.mask = op.opcode := by
  simp [Operation.matchesWord]

/-- **A word has the key of every operation that it matches**, whatever the bits above. -/
theorem keyUnder_eq_of_matchesWord {mask word : Word} {op : Operation}
    (hm : (⟨mask⟩ : Field) ⊆ op.fixed) (h : op.matchesWord word = true) :
    keyUnder mask op.opcode = keyUnder mask word := by
  have hand : op.fixed.mask &&& mask = mask := by
    rw [BitVec.and_comm]
    exact Field.subset_iff_and_eq.mp hm
  rw [keyUnder, keyUnder, ← matchesWord_iff.mp h, BitVec.and_assoc, hand]

/-! ## The order of candidates -/

/-- More specific candidates go first, equally specific ones in declaration order. -/
def Candidate.Precedes (c d : Candidate) : Prop :=
  d.operation.specificity < c.operation.specificity ∨
    (c.operation.specificity = d.operation.specificity ∧ c.index < d.index)

theorem Candidate.Precedes.asymm {c d : Candidate} (h : c.Precedes d) : ¬ d.Precedes c := by
  unfold Candidate.Precedes at *
  omega

theorem Candidate.Precedes.trans {c d e : Candidate} (h : c.Precedes d) (h' : d.Precedes e) :
    c.Precedes e := by
  unfold Candidate.Precedes at *
  omega

theorem Candidate.Precedes.ne {c d : Candidate} (h : c.Precedes d) : c ≠ d := fun he =>
  (he ▸ h).asymm (he ▸ h)

theorem mem_numbered {operations : List Operation} {c : Candidate} :
    c ∈ numbered operations ↔ operations[c.index]? = some c.operation := by
  obtain ⟨index, op⟩ := c
  simp only [numbered, List.mem_map, Prod.exists, Candidate.mk.injEq]
  constructor
  · rintro ⟨op', i, hm, rfl, rfl⟩
    exact List.mem_zipIdx_iff_getElem?.mp hm
  · intro h
    exact ⟨op, index, List.mem_zipIdx_iff_getElem?.mpr h, rfl, rfl⟩

theorem operation_mem_of_mem_numbered {operations : List Operation} {c : Candidate}
    (h : c ∈ numbered operations) : c.operation ∈ operations :=
  List.mem_of_getElem? (mem_numbered.mp h)

theorem eq_of_index_eq {operations : List Operation} {c d : Candidate}
    (hc : c ∈ numbered operations) (hd : d ∈ numbered operations) (h : c.index = d.index) :
    c = d := by
  rw [mem_numbered] at hc hd
  rw [h, hd, Option.some_inj] at hc
  cases c
  cases d
  simp_all

theorem pairwise_numbered (operations : List Operation) :
    (numbered operations).Pairwise fun c d => c.index < d.index := by
  rw [numbered, List.pairwise_map, List.pairwise_iff_getElem]
  intro i j hi hj hij
  simpa using hij

theorem precedes_or_precedes {operations : List Operation} {c d : Candidate}
    (hc : c ∈ numbered operations) (hd : d ∈ numbered operations) (h : c ≠ d) :
    c.Precedes d ∨ d.Precedes c := by
  have : c.index ≠ d.index := fun hi => h (eq_of_index_eq hc hd hi)
  unfold Candidate.Precedes
  omega

/-! ## Buckets -/

namespace Bucket

theorem insert_perm (c : Candidate) (b : Bucket) : (b.insert c).Perm (c :: b) := by
  induction b with
  | nil => exact List.Perm.refl _
  | cons d rest ih =>
    unfold Bucket.insert
    split
    · exact List.Perm.refl _
    · exact (ih.cons d).trans (List.Perm.swap c d rest)

theorem pairwise_insert {c : Candidate} {b : Bucket} (hb : b.Pairwise Candidate.Precedes)
    (hc : ∀ d ∈ b, d.index < c.index) : (b.insert c).Pairwise Candidate.Precedes := by
  induction b with
  | nil => simp [Bucket.insert]
  | cons d rest ih =>
    rw [List.pairwise_cons] at hb
    unfold Bucket.insert
    split
    next hlt =>
      refine List.pairwise_cons.mpr ⟨fun e he => ?_, List.pairwise_cons.mpr hb⟩
      rcases List.mem_cons.mp he with rfl | he
      · exact Or.inl hlt
      · exact Candidate.Precedes.trans (Or.inl hlt) (hb.1 e he)
    next hge =>
      refine List.pairwise_cons.mpr ⟨fun e he => ?_, ih hb.2 fun e he => hc e (by simp [he])⟩
      rcases List.mem_cons.mp ((insert_perm c rest).mem_iff.mp he) with rfl | he
      · have := hc d (by simp)
        unfold Candidate.Precedes
        omega
      · exact hb.1 e he

theorem foldl_insert_perm (cs : List Candidate) (b : Bucket) :
    (cs.foldl (fun b c => Bucket.insert c b) b).Perm (cs ++ b) := by
  induction cs generalizing b with
  | nil => exact List.Perm.refl _
  | cons c cs ih =>
    rw [List.foldl_cons]
    refine (ih _).trans (((insert_perm c b).append_left cs).trans ?_)
    exact List.perm_middle

theorem pairwise_foldl_insert {cs : List Candidate} {b : Bucket}
    (hb : b.Pairwise Candidate.Precedes) (hcs : cs.Pairwise fun c d => c.index < d.index)
    (h : ∀ d ∈ b, ∀ c ∈ cs, d.index < c.index) :
    (cs.foldl (fun b c => Bucket.insert c b) b).Pairwise Candidate.Precedes := by
  induction cs generalizing b with
  | nil => exact hb
  | cons c cs ih =>
    rw [List.pairwise_cons] at hcs
    refine ih (pairwise_insert hb fun d hd => h d hd c (by simp)) hcs.2 fun d hd e he => ?_
    rcases List.mem_cons.mp ((insert_perm c b).mem_iff.mp hd) with rfl | hd
    · exact hcs.1 e he
    · exact h d hd e (by simp [he])

end Bucket

namespace DispatchTable

theorem bucket_empty (key : Word) : bucket ∅ key = [] := by
  simp [bucket]

theorem bucket_insertCandidate (mask : Word) (table : DispatchTable) (c : Candidate) (key : Word) :
    (insertCandidate mask table c).bucket key =
      if keyUnder mask c.operation.opcode = key then (table.bucket key).insert c
      else table.bucket key := by
  simp only [bucket, insertCandidate, Std.ExtTreeMap.getD_insert]
  by_cases h : keyUnder mask c.operation.opcode = key <;> simp [h]

theorem bucket_foldl (mask : Word) (cs : List Candidate) (table : DispatchTable) (key : Word) :
    (cs.foldl (insertCandidate mask) table).bucket key =
      (cs.filter fun c => keyUnder mask c.operation.opcode = key).foldl
        (fun b c => Bucket.insert c b) (table.bucket key) := by
  induction cs generalizing table with
  | nil => rfl
  | cons c cs ih =>
    rw [List.foldl_cons, ih, bucket_insertCandidate, List.filter_cons]
    by_cases h : keyUnder mask c.operation.opcode = key <;> simp [h]

theorem bucket_ofOperations (mask : Word) (operations : List Operation) (key : Word) :
    (ofOperations mask operations).bucket key =
      ((numbered operations).filter fun c => keyUnder mask c.operation.opcode = key).foldl
        (fun b c => Bucket.insert c b) [] := by
  rw [ofOperations, bucket_foldl, bucket_empty]

/-- **A bucket holds the candidates of its key**, each as often as the list does. -/
theorem bucket_perm (mask : Word) (operations : List Operation) (key : Word) :
    ((ofOperations mask operations).bucket key).Perm
      ((numbered operations).filter fun c => keyUnder mask c.operation.opcode = key) := by
  rw [bucket_ofOperations]
  simpa using Bucket.foldl_insert_perm _ []

/-- **A bucket is in order.** -/
theorem pairwise_bucket (mask : Word) (operations : List Operation) (key : Word) :
    ((ofOperations mask operations).bucket key).Pairwise Candidate.Precedes := by
  rw [bucket_ofOperations]
  refine Bucket.pairwise_foldl_insert List.Pairwise.nil ?_ (by simp)
  exact (pairwise_numbered operations).filter _

end DispatchTable

/-! ## Look-ups -/

namespace InstructionSet

variable {s : InstructionSet} {word : Word} {c : Candidate}

theorem bucket_eq (s : InstructionSet) (key : Word) :
    s.bucket key = (DispatchTable.ofOperations s.mask s.operations).bucket key := by
  rw [bucket, s.table_eq]

theorem mask_subset (h : c ∈ s.candidates) : (⟨s.mask⟩ : Field) ⊆ c.operation.fixed := by
  rw [s.mask_eq]
  exact commonBits_subset (operation_mem_of_mem_numbered h)

theorem mem_bucket {key : Word} :
    c ∈ s.bucket key ↔ c ∈ s.candidates ∧ keyUnder s.mask c.operation.opcode = key := by
  rw [bucket_eq, (DispatchTable.bucket_perm _ _ _).mem_iff, List.mem_filter, decide_eq_true_eq]
  exact Iff.rfl

/-- **No candidate that matches a word is missing from the word's bucket.** -/
theorem mem_bucket_key (hc : c ∈ s.candidates) (h : c.operation.matchesWord word = true) :
    c ∈ s.bucket (s.key word) :=
  mem_bucket.mpr ⟨hc, keyUnder_eq_of_matchesWord (mask_subset hc) h⟩

theorem lookup?_eq_none_iff :
    s.lookup? word = none ↔ ∀ c ∈ s.candidates, c.operation.matchesWord word = false := by
  rw [lookup?, List.find?_eq_none]
  constructor
  · intro h c hc
    by_contra hm
    rw [Bool.not_eq_false] at hm
    exact h c (mem_bucket_key hc hm) hm
  · intro h c hc
    simp [h c (mem_bucket.mp hc).1]

theorem lookup?_mem (h : s.lookup? word = some c) :
    c ∈ s.candidates ∧ c.operation.matchesWord word = true :=
  ⟨(mem_bucket.mp (List.mem_of_find?_eq_some h)).1, (List.find?_eq_some_iff_append.mp h).1⟩

/-- What a look-up finds goes before every other candidate that matches. -/
theorem precedes_of_lookup? (h : s.lookup? word = some c) {d : Candidate} (hd : d ∈ s.candidates)
    (hm : d.operation.matchesWord word = true) (hne : d ≠ c) : c.Precedes d := by
  obtain ⟨-, front, back, hb, hfront⟩ := List.find?_eq_some_iff_append.mp h
  have hmem : d ∈ front ++ c :: back := hb ▸ mem_bucket_key hd hm
  have hpw : (front ++ c :: back).Pairwise Candidate.Precedes := by
    rw [← hb, bucket_eq]
    exact DispatchTable.pairwise_bucket _ _ _
  rcases List.mem_append.mp hmem with hd | hd
  · have hn := hfront d hd
    rw [hm] at hn
    cases hn
  · rcases List.mem_cons.mp hd with rfl | hd
    · exact absurd rfl hne
    · exact (List.pairwise_cons.mp (List.pairwise_append.mp hpw).2.1).1 d hd

/-- **A look-up finds the candidate that goes before all others that match.** -/
theorem lookup?_eq_some_iff :
    s.lookup? word = some c ↔ c ∈ s.candidates ∧ c.operation.matchesWord word = true ∧
      ∀ d ∈ s.candidates, d.operation.matchesWord word = true → d ≠ c → c.Precedes d := by
  constructor
  · intro h
    exact ⟨(lookup?_mem h).1, (lookup?_mem h).2, fun d hd hm hne => precedes_of_lookup? h hd hm hne⟩
  · rintro ⟨hc, hm, hall⟩
    cases hl : s.lookup? word with
    | none => simp [lookup?_eq_none_iff.mp hl c hc] at hm
    | some d =>
      obtain ⟨hd, hmd⟩ := lookup?_mem hl
      by_cases hne : d = c
      · rw [hne]
      · have h₁ := hall d hd hmd hne
        have h₂ := precedes_of_lookup? hl hc hm (Ne.symm hne)
        exact absurd h₂ h₁.asymm

end InstructionSet

/-! ## The scan of the whole list -/

/-- What a scan of all operations picks for a word: an operation that matches, no match being more
specific, and the first of the most specific ones. -/
structure Selects (operations : List Operation) (word : Word) (c : Candidate) : Prop where
  getElem? : operations[c.index]? = some c.operation
  matchesWord : c.operation.matchesWord word = true
  specificity_le : ∀ op ∈ operations, op.matchesWord word = true →
    op.specificity ≤ c.operation.specificity
  index_le : ∀ i op, operations[i]? = some op → op.matchesWord word = true →
    op.specificity = c.operation.specificity → c.index ≤ i

theorem selects_iff {operations : List Operation} {word : Word} {c : Candidate} :
    Selects operations word c ↔ c ∈ numbered operations ∧ c.operation.matchesWord word = true ∧
      ∀ d ∈ numbered operations, d.operation.matchesWord word = true → d ≠ c → c.Precedes d := by
  constructor
  · intro h
    have hc := mem_numbered.mpr h.getElem?
    refine ⟨hc, h.matchesWord, fun d hd hm hne => ?_⟩
    have h₁ := h.specificity_le _ (operation_mem_of_mem_numbered hd) hm
    have h₂ := h.index_le _ _ (mem_numbered.mp hd) hm
    rcases precedes_or_precedes hc hd (Ne.symm hne) with hp | hp
    · exact hp
    · unfold Candidate.Precedes at *
      omega
  · rintro ⟨hc, hm, hall⟩
    have key : ∀ d ∈ numbered operations, d.operation.matchesWord word = true →
        d = c ∨ c.Precedes d := fun d hd hmd => by
      by_cases hne : d = c
      · exact Or.inl hne
      · exact Or.inr (hall d hd hmd hne)
    refine ⟨mem_numbered.mp hc, hm, fun op hop hmo => ?_, fun i op hi hmo hs => ?_⟩
    · obtain ⟨i, hi⟩ := List.mem_iff_getElem?.mp hop
      rcases key ⟨i, op⟩ (mem_numbered.mpr hi) hmo with rfl | hp
      · exact le_rfl
      · simp only [Candidate.Precedes] at hp
        omega
    · rcases key ⟨i, op⟩ (mem_numbered.mpr hi) hmo with rfl | hp
      · exact le_rfl
      · simp only [Candidate.Precedes] at hp
        omega

theorem mapM_toOperation (operations : List Operation) :
    (operations.map Declaration.operation).mapM Declaration.toOperation = .ok operations := by
  induction operations with
  | nil => rfl
  | cons op rest ih =>
    rw [List.map_cons, List.mapM_cons, ih]
    rfl

/-- **A look-up agrees with a scan of the whole list**: it finds nothing exactly when no operation
matches, and otherwise the first of the most specific operations that match. -/
theorem lookup?_ofDeclarations (operations : List Operation) (word : Word) :
    ∃ s, InstructionSet.ofDeclarations (operations.map .operation) = .ok s ∧
      s.operations = operations ∧
      (s.lookup? word = none ↔ ∀ op ∈ operations, op.matchesWord word = false) ∧
      ∀ c, s.lookup? word = some c ↔ Selects operations word c := by
  refine ⟨InstructionSet.ofList operations, ?_, rfl, ?_, fun c => ?_⟩
  · rw [InstructionSet.ofDeclarations, mapM_toOperation]
    rfl
  · rw [InstructionSet.lookup?_eq_none_iff]
    constructor
    · intro h op hop
      obtain ⟨i, hi⟩ := List.mem_iff_getElem?.mp hop
      exact h ⟨i, op⟩ (mem_numbered.mpr hi)
    · intro h c hc
      exact h _ (operation_mem_of_mem_numbered hc)
  · rw [InstructionSet.lookup?_eq_some_iff, selects_iff]
    exact Iff.rfl

end Isa16
