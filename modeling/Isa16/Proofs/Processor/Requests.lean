import Isa16.Processor
import Isa16.Proofs.Decoding.Dispatch
import Mathlib

/-!
# Processors in use

* `Request`: what the owner of a processor may ask of it. `Processor.answer` is what comes back and
  `Processor.next` the processor that is left.
* `Seen`: the words that were decoded or executed since they were last forgotten.
* `Processor.Recalls`: the memo holds the words seen, each as a new processor decodes it. Every
  request keeps this (`Recalls.next`), so every sequence of requests does (`recalls_after`).
* `decode?_make`: a new processor pairs a word with the routine of the operation that is looked up.
* **`answer_after_make`**: whatever was asked before, the answers are those of a new processor.
-/

namespace Isa16

/-- What the owner of a processor may ask of it. -/
inductive Request (σ : Type)
  | decode (word : Word)
  | execute (word : Word) (state : σ)
  | forget (word : Word)
  | forgetAll

/-- What a request gives back. -/
inductive Answer (σ : Type)
  | decoded (found : Option (Decoded σ))
  | executed (outcome : Except ProcessorError Outcome) (state : σ)
  | done

namespace Request

variable {σ : Type}

/-- The request has the word decoded. -/
def Reads : Request σ → Word → Prop
  | decode w, word | execute w _, word => w = word
  | forget _, _ | forgetAll, _ => False

/-- The request has the word forgotten. -/
def Drops : Request σ → Word → Prop
  | forget w, word => w = word
  | forgetAll, _ => True
  | decode _, _ | execute _ _, _ => False

end Request

/-- The word was decoded or executed and has not been forgotten since. -/
def Seen {σ : Type} (requests : List (Request σ)) (word : Word) : Prop :=
  ∃ before r later, requests = before ++ r :: later ∧ r.Reads word ∧ ∀ r' ∈ later, ¬ r'.Drops word

section

variable {σ : Type} {requests : List (Request σ)} {r : Request σ} {word : Word}

theorem not_seen_nil : ¬ Seen ([] : List (Request σ)) word := by
  rintro ⟨before, r, later, h, -⟩
  exact List.append_ne_nil_of_right_ne_nil before (List.cons_ne_nil r later) h.symm

theorem seen_concat :
    Seen (requests ++ [r]) word ↔ r.Reads word ∨ ¬ r.Drops word ∧ Seen requests word := by
  constructor
  · rintro ⟨before, r', later, h, hread, hlater⟩
    rcases List.eq_nil_or_concat later with rfl | ⟨later, r'', rfl⟩
    · obtain ⟨-, hr⟩ := List.append_inj' h rfl
      cases hr
      exact Or.inl hread
    · rw [List.concat_eq_append] at h hlater
      have hsplit : requests ++ [r] = (before ++ r' :: later) ++ [r''] := by
        rw [h, List.append_assoc, List.cons_append]
      obtain ⟨rfl, hr⟩ := List.append_inj' hsplit rfl
      cases hr
      refine Or.inr ⟨hlater r (by simp), before, r', later, rfl, hread, fun r'' hr'' => ?_⟩
      exact hlater r'' (List.mem_append_left _ hr'')
  · rintro (hread | ⟨hdrop, before, r', later, rfl, hread, hlater⟩)
    · exact ⟨requests, r, [], rfl, hread, by simp⟩
    · refine ⟨before, r', later ++ [r], by simp, hread, fun r'' hr'' => ?_⟩
      rcases List.mem_append.mp hr'' with h | h
      · exact hlater r'' h
      · rwa [List.mem_singleton.mp h]

end

/-! ## Requests -/

namespace Processor

variable {σ : Type}

section

variable [MachineState σ]

/-- What a request gives back. -/
def answer (p : Processor σ) : Request σ → Answer σ
  | .decode word => .decoded (p.decode word).1
  | .execute word state => .executed (p.execute word state).outcome (p.execute word state).state
  | .forget _ | .forgetAll => .done

/-- The processor that a request leaves. -/
def next (p : Processor σ) : Request σ → Processor σ
  | .decode word => (p.decode word).2
  | .execute word state => (p.execute word state).processor
  | .forget word => p.forget word
  | .forgetAll => p.forgetAll

/-- The processor that requests leave, one after another. -/
def after (p : Processor σ) (requests : List (Request σ)) : Processor σ :=
  requests.foldl next p

/-- What becomes of a word that was decoded so, and the state that is left. -/
def carryOut (word : Word) : Option (Decoded σ) → σ → Except ProcessorError Outcome × σ
  | none, state => (.ok (.illegal word), state)
  | some decoded, state =>
    let mnemonic := decoded.instruction.operation.mnemonic
    match decoded.routine with
    | none => (.ok (.unimplemented word mnemonic), state)
    | some routine =>
      let completion := routine.call state (decoded.instruction.values.map .ofWord)
      ((completion.result.map fun () => .executed word mnemonic).mapError (.run word),
        completion.state)

theorem execute_eq (p : Processor σ) (word : Word) (state : σ) :
    p.execute word state = ⟨(carryOut word (p.decode word).1 state).1, (p.decode word).2,
      (carryOut word (p.decode word).1 state).2⟩ := by
  unfold execute
  rcases p.decode word with ⟨_ | ⟨instruction, _ | routine⟩, p'⟩
  · rfl
  · rfl
  · dsimp only [carryOut]
    cases (routine.call state (instruction.values.map .ofWord)).result <;> rfl

theorem carryOut_of_not_executed {word : Word} {found : Option (Decoded σ)} {state : σ}
    {outcome : Outcome} (h : (carryOut word found state).1 = .ok outcome)
    (hne : ∀ w mnemonic, outcome ≠ .executed w mnemonic) :
    (carryOut word found state).2 = state := by
  rcases found with _ | ⟨instruction, _ | routine⟩
  · rfl
  · rfl
  · dsimp only [carryOut] at h
    cases hr : (routine.call state (instruction.values.map .ofWord)).result with
    | error e =>
      rw [hr] at h
      cases h
    | ok u =>
      rw [hr] at h
      cases h
      exact absurd rfl (hne _ _)

end

/-! ## The memo -/

end Processor

theorem Memo.contains_eq_isSome {α : Type} (m : Memo α) (word : Word) :
    m.contains word = (m.get? word).isSome := by
  simp [contains, get?]

namespace Processor

variable {σ : Type}

/-- The processor is `fresh` but for a memo that holds these words, each as `fresh` decodes it. -/
structure Recalls (fresh : Processor σ) (seen : Word → Prop) (p : Processor σ) : Prop where
  instructions : p.instructions = fresh.instructions
  routines : p.routines = fresh.routines
  get?_eq_some_iff : ∀ word decoded,
    p.memo.get? word = some decoded ↔ seen word ∧ fresh.decode? word = some decoded

namespace Recalls

variable {fresh p : Processor σ} {seen : Word → Prop}

theorem decode?_eq (h : Recalls fresh seen p) (word : Word) :
    p.decode? word = fresh.decode? word := by
  unfold decode? routine?
  rw [h.instructions, h.routines]

theorem decode_fst (h : Recalls fresh seen p) (word : Word) :
    (p.decode word).1 = fresh.decode? word := by
  unfold decode
  cases hm : p.memo.get? word with
  | some decoded => exact ((h.get?_eq_some_iff word decoded).mp hm).2.symm
  | none =>
    dsimp only
    rw [h.decode?_eq]
    cases fresh.decode? word <;> rfl

theorem decode_snd (h : Recalls fresh seen p) (word : Word) :
    Recalls fresh (fun w => word = w ∨ seen w) (p.decode word).2 := by
  unfold decode
  cases hm : p.memo.get? word with
  | some decoded =>
    have hword := ((h.get?_eq_some_iff word decoded).mp hm).1
    refine ⟨h.instructions, h.routines, fun w d => ?_⟩
    rw [h.get?_eq_some_iff]
    refine and_congr_left fun _ => ⟨Or.inr, ?_⟩
    rintro (rfl | hw)
    · exact hword
    · exact hw
  | none =>
    dsimp only
    rw [h.decode?_eq]
    cases hd : fresh.decode? word with
    | none =>
      refine ⟨h.instructions, h.routines, fun w d => ?_⟩
      rw [h.get?_eq_some_iff]
      refine and_congr_left fun hfound => ⟨Or.inr, ?_⟩
      rintro (rfl | hw)
      · rw [hd] at hfound
        cases hfound
      · exact hw
    | some decoded =>
      refine ⟨h.instructions, h.routines, fun w d => ?_⟩
      rw [Memo.get?_insert]
      split
      next heq =>
        subst heq
        rw [hd]
        simp
      next hne => simp [hne, h.get?_eq_some_iff]

variable [MachineState σ]

/-- **A request is answered as by a processor that has seen nothing.** -/
theorem answer_eq {p' : Processor σ} {seen' : Word → Prop} (h : Recalls fresh seen p)
    (h' : Recalls fresh seen' p') (r : Request σ) : p.answer r = p'.answer r := by
  cases r with
  | decode word => rw [answer, answer, h.decode_fst, h'.decode_fst]
  | execute word state =>
    rw [answer, answer, execute_eq, execute_eq, h.decode_fst, h'.decode_fst]
  | forget word => rfl
  | forgetAll => rfl

/-- **One request**: the memo holds the word that the request reads and not the one that it
drops. -/
theorem next (h : Recalls fresh seen p) (r : Request σ) :
    Recalls fresh (fun w => r.Reads w ∨ ¬ r.Drops w ∧ seen w) (p.next r) := by
  cases r with
  | decode word =>
    have hdecode := h.decode_snd word
    rw [Processor.next]
    simpa [Request.Reads, Request.Drops] using hdecode
  | execute word state =>
    have hdecode := h.decode_snd word
    rw [Processor.next, execute_eq]
    simpa [Request.Reads, Request.Drops] using hdecode
  | forget word =>
    refine ⟨h.instructions, h.routines, fun w d => ?_⟩
    rw [Processor.next, forget, Memo.get?_erase]
    simp only [Request.Reads, Request.Drops, false_or]
    split
    next heq => simp [heq]
    next hne => simp [hne, h.get?_eq_some_iff]
  | forgetAll =>
    refine ⟨h.instructions, h.routines, fun w d => ?_⟩
    simp [Processor.next, forgetAll, Request.Reads, Request.Drops, EmptyCollection.emptyCollection]

end Recalls

variable {fresh : Processor σ}

theorem recalls_of_memo_eq (h : fresh.memo = ∅) : Recalls fresh (fun _ => False) fresh := by
  refine ⟨rfl, rfl, fun word d => ?_⟩
  rw [h]
  simp [EmptyCollection.emptyCollection]

/-- **All requests**: the memo holds the words seen. -/
theorem recalls_after [MachineState σ] (h : fresh.memo = ∅) (requests : List (Request σ)) :
    Recalls fresh (Seen requests) (fresh.after requests) := by
  induction requests using List.reverseRecOn with
  | nil =>
    have hnil : (Seen ([] : List (Request σ))) = fun _ => False :=
      funext fun word => eq_false not_seen_nil
    rw [hnil]
    exact recalls_of_memo_eq h
  | append_singleton requests r ih =>
    have hconcat : Seen (requests ++ [r]) = fun w => r.Reads w ∨ ¬ r.Drops w ∧ Seen requests w :=
      funext fun word => propext seen_concat
    rw [hconcat, after, List.foldl_append]
    exact ih.next r

/-! ## New processors -/

theorem mapM_eq_ok_iff {α β ε : Type} {f : α → Except ε β} {xs : List α} {ys : List β} :
    xs.mapM f = .ok ys ↔ List.Forall₂ (fun x y => f x = .ok y) xs ys := by
  induction xs generalizing ys with
  | nil =>
    rw [List.mapM_nil, List.forall₂_nil_left_iff]
    constructor
    · intro h
      cases h
      rfl
    · rintro rfl
      rfl
  | cons x xs ih =>
    rw [List.mapM_cons, List.forall₂_cons_left_iff]
    constructor
    · intro h
      cases hx : f x with
      | error e =>
        rw [hx] at h
        cases h
      | ok y =>
        cases hxs : xs.mapM f with
        | error e =>
          rw [hx, hxs] at h
          cases h
        | ok ys' =>
          rw [hx, hxs] at h
          cases h
          exact ⟨y, ys', rfl, ih.mp hxs, rfl⟩
    · rintro ⟨y, ys', hx, hxs, rfl⟩
      rw [hx, ih.mpr hxs]
      rfl

theorem exists_forall₂ {α β : Type} {R : α → β → Prop} {xs : List α}
    (h : ∀ x ∈ xs, ∃ y, R x y) : ∃ ys, List.Forall₂ R xs ys := by
  induction xs with
  | nil => exact ⟨[], .nil⟩
  | cons x xs ih =>
    obtain ⟨y, hy⟩ := h x List.mem_cons_self
    obtain ⟨ys, hys⟩ := ih fun x' hx' => h x' (List.mem_cons_of_mem x hx')
    exact ⟨y :: ys, .cons hy hys⟩

theorem getElem?_of_forall₂ {α β : Type} {R : α → β → Prop} {xs : List α} {ys : List β} {x : α}
    {i : Nat} (h : List.Forall₂ R xs ys) (hx : xs[i]? = some x) : ∃ y, ys[i]? = some y ∧ R x y := by
  induction h generalizing i with
  | nil => cases hx
  | cons hr _ ih =>
    cases i with
    | zero =>
      cases hx
      exact ⟨_, rfl, hr⟩
    | succ i => exact ih hx

theorem numbered_getElem? {operations : List Operation} {c : Candidate}
    (h : c ∈ numbered operations) : (numbered operations)[c.index]? = some c := by
  rw [mem_numbered] at h
  simp [numbered, h]

section

variable {instructions : InstructionSet} {programOf : Candidate → Option (Program σ)}

theorem make_eq_ok_iff : make instructions programOf = .ok fresh ↔
    fresh.instructions = instructions ∧ fresh.memo = ∅ ∧
      List.Forall₂ (fun c routine => compileOptional (programOf c) = .ok routine)
        instructions.candidates fresh.routines := by
  unfold make
  rw [← mapM_eq_ok_iff]
  cases hr : instructions.candidates.mapM fun c => compileOptional (programOf c) with
  | error e =>
    constructor
    · intro h
      cases h
    · rintro ⟨-, -, h⟩
      cases h
  | ok routines =>
    obtain ⟨instructions', routines', memo⟩ := fresh
    constructor
    · intro h
      cases h
      exact ⟨rfl, rfl, rfl⟩
    · rintro ⟨rfl, rfl, h⟩
      cases h
      rfl

theorem routine?_make (h : make instructions programOf = .ok fresh) {c : Candidate}
    (hc : c ∈ instructions.candidates) :
    compileOptional (programOf c) = .ok (fresh.routine? c.index) := by
  obtain ⟨-, -, hroutines⟩ := make_eq_ok_iff.mp h
  obtain ⟨routine, hget, hroutine⟩ := getElem?_of_forall₂ hroutines (numbered_getElem? hc)
  rw [routine?, hget, Option.join_some, hroutine]

/-- **A new processor decodes a word** as the operation that is looked up, with the routine of that
operation. -/
theorem decode?_make (h : make instructions programOf = .ok fresh) (word : Word) :
    (instructions.lookup? word = none ∧ fresh.decode? word = none) ∨
      ∃ c routine, instructions.lookup? word = some c ∧
        instructions.operations[c.index]? = some c.operation ∧
        compileOptional (programOf c) = .ok routine ∧
        fresh.decode? word = some ⟨⟨word, c.operation⟩, routine⟩ := by
  obtain ⟨hinstructions, -, -⟩ := make_eq_ok_iff.mp h
  rw [decode?, hinstructions]
  cases hl : instructions.lookup? word with
  | none => exact Or.inl ⟨rfl, rfl⟩
  | some c =>
    have hc := (InstructionSet.lookup?_mem hl).1
    exact Or.inr ⟨c, fresh.routine? c.index, rfl, mem_numbered.mp hc, routine?_make h hc, rfl⟩

theorem isSome_decode?_make (h : make instructions programOf = .ok fresh) (word : Word) :
    (fresh.decode? word).isSome = true ↔
      ∃ op ∈ instructions.operations, op.matchesWord word = true := by
  rcases decode?_make h word with ⟨hl, hd⟩ | ⟨c, routine, hl, -, -, hd⟩
  · rw [hd]
    refine iff_of_false Bool.false_ne_true ?_
    rintro ⟨op, hop, hm⟩
    obtain ⟨i, hi⟩ := List.mem_iff_getElem?.mp hop
    have hno := InstructionSet.lookup?_eq_none_iff.mp hl ⟨i, op⟩ (mem_numbered.mpr hi)
    rw [hm] at hno
    cases hno
  · obtain ⟨hc, hm⟩ := InstructionSet.lookup?_mem hl
    rw [hd]
    exact iff_of_true rfl ⟨c.operation, operation_mem_of_mem_numbered hc, hm⟩

theorem exists_make (h : ∀ c ∈ instructions.candidates, ∀ program, programOf c = some program →
    ∃ routine, program.compile = .ok routine) :
    ∃ fresh, make instructions programOf = .ok fresh := by
  have hall : ∀ c ∈ instructions.candidates, ∃ routine,
      compileOptional (programOf c) = .ok routine := by
    intro c hc
    cases hp : programOf c with
    | none => exact ⟨none, rfl⟩
    | some program =>
      obtain ⟨routine, hroutine⟩ := h c hc program hp
      exact ⟨some routine, by rw [compileOptional, hroutine]; rfl⟩
  obtain ⟨routines, hroutines⟩ := exists_forall₂ hall
  exact ⟨⟨instructions, routines, ∅⟩, make_eq_ok_iff.mpr ⟨rfl, rfl, hroutines⟩⟩

variable [MachineState σ]

/-- **Whatever was asked before, the answers are those of a new processor.** A word is decoded as
the operation that is looked up, with the routine compiled for that operation. The memo holds
exactly the words seen that some operation matches, each as a new processor decodes it; running a
word leaves the processor that decoding it leaves, and a word that is not run leaves the state. -/
theorem answer_after_make (instructions : InstructionSet)
    (programOf : Candidate → Option (Program σ))
    (hcompile : ∀ c ∈ instructions.candidates, ∀ program, programOf c = some program →
      ∃ routine, program.compile = .ok routine) :
    ∃ fresh, make instructions programOf = .ok fresh ∧ ∀ requests : List (Request σ),
      let p := fresh.after requests
      (∀ r, p.answer r = fresh.answer r) ∧
      (∀ word, (instructions.lookup? word = none ∧ (p.decode word).1 = none) ∨
        ∃ c routine, instructions.lookup? word = some c ∧
          instructions.operations[c.index]? = some c.operation ∧
          compileOptional (programOf c) = .ok routine ∧
          (p.decode word).1 = some ⟨⟨word, c.operation⟩, routine⟩) ∧
      (∀ word decoded, p.memo.get? word = some decoded ↔
        Seen requests word ∧ (fresh.decode word).1 = some decoded) ∧
      (∀ word, p.memo.contains word = true ↔
        Seen requests word ∧ ∃ op ∈ instructions.operations, op.matchesWord word = true) ∧
      ∀ word state, (p.execute word state).processor = (p.decode word).2 ∧
        ∀ outcome, (p.execute word state).outcome = .ok outcome →
          (∀ w mnemonic, outcome ≠ .executed w mnemonic) →
            (p.execute word state).state = state := by
  obtain ⟨fresh, hfresh⟩ := exists_make hcompile
  have hmemo := (make_eq_ok_iff.mp hfresh).2.1
  have hnew := recalls_of_memo_eq hmemo
  refine ⟨fresh, hfresh, fun requests => ?_⟩
  have hp := recalls_after hmemo requests
  intro p
  refine ⟨hp.answer_eq hnew, fun word => ?_, fun word decoded => ?_, fun word => ?_,
    fun word state => ⟨?_, fun outcome => ?_⟩⟩
  · rw [hp.decode_fst]
    exact decode?_make hfresh word
  · rw [hnew.decode_fst]
    exact hp.get?_eq_some_iff word decoded
  · rw [← isSome_decode?_make hfresh, Memo.contains_eq_isSome, Option.isSome_iff_exists,
      Option.isSome_iff_exists]
    simp only [p, hp.get?_eq_some_iff, exists_and_left]
  · rw [execute_eq]
  · rw [execute_eq]
    exact carryOut_of_not_executed

/-- Two operations of one encoding, and one without a program. -/
def sampleSet : InstructionSet :=
  InstructionSet.ofList [
    ⟨"SET", 0x1000, [⟨⟨0x0fff⟩, .constant, {}⟩], by decide, by decide, by decide, by decide⟩,
    ⟨"ALT", 0x1000, [⟨⟨0x0fff⟩, .constant, {}⟩], by decide, by decide, by decide, by decide⟩,
    ⟨"NOP", 0x0000, [⟨⟨0x0fff⟩, .constant, {}⟩], by decide, by decide, by decide, by decide⟩]

/-- The first program writes its operand after it has read it. -/
def samplePrograms (c : Candidate) : Option (Program Cells) :=
  match c.index with
  | 0 => some ⟨"SET", [], ∅, ["ctx.acc = ops[0]", "ops[0] = 7"]⟩
  | 1 => some ⟨"ALT", [], ∅, ["ctx.acc = 0"]⟩
  | _ => none

theorem answer_after_sample :
    (∀ c ∈ sampleSet.candidates, ∀ program, samplePrograms c = some program →
      ∃ routine, program.compile = .ok routine) ∧
    ∃ fresh, make sampleSet samplePrograms = .ok fresh ∧ ∀ state : Cells, ∀ r,
      (fresh.after [.execute 0x1abc state, .decode 0x0123, .forget 0x1abc]).answer r =
        fresh.answer r := by
  have hcompile : ∀ c ∈ sampleSet.candidates, ∀ program, samplePrograms c = some program →
      ∃ routine, program.compile = .ok routine := by
    rintro ⟨index, op⟩ - program hp
    dsimp only [samplePrograms] at hp
    split at hp
    · cases hp
      exact ⟨⟨"SET", 0, [
        .assign (.context [.literal (.text "acc")]) (.read (.operand (.literal (.int 0)))),
        .assign (.operand (.literal (.int 0))) (.literal (.int 7))]⟩, by cbv⟩
    · cases hp
      exact ⟨⟨"ALT", 0, [.assign (.context [.literal (.text "acc")]) (.literal (.int 0))]⟩, by cbv⟩
    · cases hp
  obtain ⟨fresh, hfresh, h⟩ := answer_after_make sampleSet samplePrograms hcompile
  exact ⟨hcompile, fresh, hfresh, fun state => (h _).1⟩

end

end Processor

end Isa16
