import Isa16.Proofs.Decoding.Dispatch

/-!
# The buckets of a dispatch table

* `keyUnder_eq_iff`: two words have one key exactly when they agree on the bits of the mask.
* `DispatchTable.ne_nil_of_getElem?`: there is no bucket without candidates.
* `Candidate.leads`: the comparison by specificity alone. A stable sort by it orders candidates as
  buckets are ordered (`pairwise_mergeSort_leads`), so a bucket is what it makes of the candidates
  of a key (`InstructionSet.bucket_eq_mergeSort`).
* `InstructionSet.count_index_bucket`: how often an operation's position occurs in a bucket.
* **`partitions_ofDeclarations`**: the buckets divide the operations of a set.
-/

namespace Isa16

/-! ## Keys -/

theorem getLsbD_keyUnder (mask word : Word) (i : Nat) :
    (keyUnder mask word).getLsbD i =
      (word.getLsbD (Bits.lowest mask + i) && mask.getLsbD (Bits.lowest mask + i)) := by
  rw [keyUnder, BitVec.getLsbD_ushiftRight, BitVec.getLsbD_and]

/-- **Words with one key agree on the mask**, and the other way round. -/
theorem keyUnder_eq_iff {mask v w : Word} :
    keyUnder mask v = keyUnder mask w ↔
      ∀ i, mask.getLsbD i = true → v.getLsbD i = w.getLsbD i := by
  constructor
  · intro h i hi
    have hlowest : Bits.lowest mask + (i - Bits.lowest mask) = i :=
      Nat.add_sub_cancel' (Bits.lowest_le hi)
    have hbit := congrArg (BitVec.getLsbD · (i - Bits.lowest mask)) h
    simpa only [getLsbD_keyUnder, hlowest, hi, Bool.and_true] using hbit
  · intro h
    refine BitVec.eq_of_getLsbD_eq fun i _ => ?_
    rw [getLsbD_keyUnder, getLsbD_keyUnder]
    cases hi : mask.getLsbD (Bits.lowest mask + i) with
    | false => rw [Bool.and_false, Bool.and_false]
    | true => rw [h _ hi]

/-! ## Buckets with something in them -/

theorem Bucket.insert_ne_nil (c : Candidate) (b : Bucket) : b.insert c ≠ [] := by
  cases b with
  | nil => exact List.cons_ne_nil _ _
  | cons d rest =>
    unfold Bucket.insert
    split_ifs
    · exact List.cons_ne_nil _ _
    · exact List.cons_ne_nil _ _

namespace DispatchTable

theorem ne_nil_foldl {mask : Word} {cs : List Candidate} {table : DispatchTable}
    (h : ∀ {key : Word} {b : Bucket}, table[key]? = some b → b ≠ []) {key : Word} {b : Bucket}
    (hb : (cs.foldl (insertCandidate mask) table)[key]? = some b) : b ≠ [] := by
  induction cs generalizing table with
  | nil => exact h hb
  | cons c cs ih =>
    refine ih (fun {key' b'} hb' => ?_) hb
    rw [insertCandidate, Std.ExtTreeMap.getElem?_insert] at hb'
    split at hb'
    · cases hb'
      exact Bucket.insert_ne_nil _ _
    · exact h hb'

theorem ne_nil_of_getElem? {mask : Word} {operations : List Operation} {key : Word} {b : Bucket}
    (h : (ofOperations mask operations)[key]? = some b) : b ≠ [] :=
  ne_nil_foldl (fun hempty => by simp at hempty) h

end DispatchTable

/-! ## Sorting -/

/-- The candidate is at least as specific as the other. -/
def Candidate.leads (c d : Candidate) : Bool :=
  d.operation.specificity ≤ c.operation.specificity

theorem pairwise_mergeSort_leads {cs : List Candidate}
    (h : cs.Pairwise fun c d => c.index < d.index) :
    (cs.mergeSort Candidate.leads).Pairwise Candidate.Precedes := by
  have htrans : ∀ c d e : Candidate, c.leads d = true → d.leads e = true → c.leads e = true := by
    simp only [Candidate.leads, decide_eq_true_eq]
    intro c d e
    omega
  have htotal : ∀ c d : Candidate, (c.leads d || d.leads c) = true := by
    simp only [Candidate.leads, Bool.or_eq_true, decide_eq_true_eq]
    intro c d
    omega
  induction cs with
  | nil => simp
  | cons c cs ih =>
    rw [List.pairwise_cons] at h
    -- the sort puts `c` into the sorted rest, behind those only that it does not lead
    obtain ⟨front, back, hsort, hrest, hfront⟩ := List.mergeSort_cons htrans htotal c cs
    have hsorted := List.pairwise_mergeSort htrans htotal (c :: cs)
    have hpw := ih h.2
    rw [hrest, List.pairwise_append] at hpw
    rw [hsort, List.pairwise_append, List.pairwise_cons] at hsorted ⊢
    have hbefore : ∀ d ∈ front, d.Precedes c := by
      intro d hd
      have hlt := hfront d hd
      simp only [Candidate.leads, Bool.not_eq_true', decide_eq_false_iff_not, not_le] at hlt
      exact Or.inl hlt
    have hbehind : ∀ d ∈ back, c.Precedes d := by
      intro d hd
      have hle := hsorted.2.1.1 d hd
      have hmem : d ∈ cs.mergeSort Candidate.leads := hrest ▸ List.mem_append_right _ hd
      have hindex := h.1 d (List.mem_mergeSort.mp hmem)
      simp only [Candidate.leads, decide_eq_true_eq] at hle
      unfold Candidate.Precedes
      omega
    refine ⟨hpw.1, ⟨hbehind, hpw.2.1⟩, fun d hd e he => ?_⟩
    rcases List.mem_cons.mp he with rfl | he
    · exact hbefore d hd
    · exact hpw.2.2 d hd e he

/-! ## Positions -/

namespace InstructionSet

variable (s : InstructionSet)

theorem perm_bucket (key : Word) :
    (s.bucket key).Perm (s.candidates.filter fun c => s.key c.operation.opcode = key) := by
  rw [bucket_eq]
  exact DispatchTable.bucket_perm s.mask s.operations key

theorem pairwise_bucket (key : Word) : (s.bucket key).Pairwise Candidate.Precedes := by
  rw [bucket_eq]
  exact DispatchTable.pairwise_bucket s.mask s.operations key

theorem nodup_index_bucket (key : Word) : ((s.bucket key).map Candidate.index).Nodup := by
  refine ((s.perm_bucket key).map _).nodup_iff.mpr ?_
  refine List.Pairwise.map _ (fun _ _ hlt => Nat.ne_of_lt hlt) ?_
  exact (pairwise_numbered s.operations).filter _

/-- **An operation's position occurs once in the bucket of its key**, and in no other. -/
theorem count_index_bucket {i : Nat} {op : Operation} (h : s.operations[i]? = some op)
    (key : Word) :
    ((s.bucket key).map Candidate.index).count i = if s.key op.opcode = key then 1 else 0 := by
  have hmem : i ∈ (s.bucket key).map Candidate.index ↔ s.key op.opcode = key := by
    rw [List.mem_map]
    constructor
    · rintro ⟨c, hc, rfl⟩
      obtain ⟨hcand, hkey⟩ := mem_bucket.mp hc
      cases h.symm.trans (mem_numbered.mp hcand)
      exact hkey
    · intro hkey
      exact ⟨⟨i, op⟩, mem_bucket.mpr ⟨mem_numbered.mpr h, hkey⟩, rfl⟩
  rw [(s.nodup_index_bucket key).count]
  simp only [hmem]

/-- **A bucket is what a stable sort makes of the candidates of its key**, most specific first. -/
theorem bucket_eq_mergeSort (key : Word) :
    s.bucket key =
      (s.candidates.filter fun c => s.key c.operation.opcode = key).mergeSort Candidate.leads := by
  have hperm := (s.perm_bucket key).trans (List.mergeSort_perm _ Candidate.leads).symm
  refine hperm.eq_of_pairwise (fun _ _ _ _ hcd hdc => absurd hdc hcd.asymm)
    (s.pairwise_bucket key) (pairwise_mergeSort_leads ?_)
  exact (pairwise_numbered s.operations).filter _

/-! ## Whole tables -/

/-- The dispatch table divides the operations of a set. A position occurs in the bucket of its
operation's key once and nowhere else, no bucket is empty, each is in order, and words have one key
exactly when they agree on the common bits. -/
structure Partitions : Prop where
  candidate : ∀ {key : Word} {c : Candidate}, c ∈ s.bucket key →
    s.operations[c.index]? = some c.operation
  count_index : ∀ {i : Nat} {op : Operation}, s.operations[i]? = some op → ∀ key,
    ((s.bucket key).map Candidate.index).count i = if s.key op.opcode = key then 1 else 0
  ne_nil : ∀ {key : Word} {b : Bucket}, s.table[key]? = some b → b ≠ []
  pairwise : ∀ key, (s.bucket key).Pairwise fun c d =>
    d.operation.specificity < c.operation.specificity ∨
      (c.operation.specificity = d.operation.specificity ∧ c.index < d.index)
  key_eq_iff : ∀ {v w : Word},
    s.key v = s.key w ↔ ∀ i, s.mask.getLsbD i = true → v.getLsbD i = w.getLsbD i

theorem partitions : s.Partitions where
  candidate h := mem_numbered.mp (mem_bucket.mp h).1
  count_index h := s.count_index_bucket h
  ne_nil h := by
    rw [s.table_eq] at h
    exact DispatchTable.ne_nil_of_getElem? h
  pairwise := s.pairwise_bucket
  key_eq_iff := keyUnder_eq_iff

end InstructionSet

/-- **The dispatch table divides the operations**, whatever they are and in whatever order. -/
theorem partitions_ofDeclarations (operations : List Operation) :
    ∃ s, InstructionSet.ofDeclarations (operations.map .operation) = .ok s ∧
      s.operations = operations ∧ s.Partitions := by
  refine ⟨InstructionSet.ofList operations, ?_, rfl, InstructionSet.partitions _⟩
  rw [InstructionSet.ofDeclarations, mapM_toOperation]
  rfl

end Isa16
