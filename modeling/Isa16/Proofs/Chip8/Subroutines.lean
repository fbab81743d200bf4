import Isa16.Proofs.Chip8.WellFormed

/-!
# CHIP-8 subroutines

* `Balanced`: words with a return for each call, nested no deeper than a bound.
* `Returns`: the call that a return answers.
* `Registers.success_of_balanced`: such words do not fail where the stack has the room.
* `Registers.keeps_of_balanced`: where they do not fail, they leave the stack pointer and the part
  of the stack below it as they were.
* `HoldsMachine`: the parts of the machine, with the stack pointer at a given height.
* **`executeAll_balanced`**: calls and returns nest, whatever other words stand between them.
-/

namespace Isa16.Chip8

open Processor

/-! ## Calls and returns -/

/-- The word calls a subroutine. -/
def IsCall (word : Word) : Prop :=
  0x2000 ≤ word ∧ word ≤ 0x2fff

instance : DecidablePred IsCall := fun word =>
  inferInstanceAs (Decidable (0x2000 ≤ word ∧ word ≤ 0x2fff))

/-- Words with a return behind each call and a call before each return, nested at most so deep. -/
inductive Balanced : Nat → List Word → Prop
  | nil {depth : Nat} : Balanced depth []
  | other {depth : Nat} {word : Word} {words : List Word} (hcall : ¬ IsCall word)
      (hret : word ≠ 0x00ee) (h : Balanced depth words) : Balanced depth (word :: words)
  | nested {depth : Nat} {call : Word} {inner words : List Word} (hcall : IsCall call)
      (hinner : Balanced depth inner) (h : Balanced (depth + 1) words) :
      Balanced (depth + 1) (call :: (inner ++ 0x00ee :: words))

/-- A return behind the words `pre` answers the call that is executed behind the words `before`. -/
def Returns (before pre : List Word) : Prop :=
  ∃ call depth inner, IsCall call ∧ Balanced depth inner ∧ pre = before ++ call :: inner

theorem not_isCall_ret : ¬ IsCall 0x00ee := by
  decide

theorem Returns.append {before pre : List Word} (h : Returns before pre) (words : List Word) :
    Returns (words ++ before) (words ++ pre) := by
  obtain ⟨call, depth, inner, hcall, hinner, rfl⟩ := h
  exact ⟨call, depth, inner, hcall, hinner, (List.append_assoc _ _ _).symm⟩

theorem Balanced.exists_returns {depth : Nat} {words : List Word} (h : Balanced depth words) :
    ∀ {pre after : List Word}, words = pre ++ 0x00ee :: after → ∃ before, Returns before pre := by
  induction h with
  | nil =>
    intro pre after heq
    cases pre <;> cases heq
  | @other depth word words hcall hret h ih =>
    intro pre after heq
    cases pre with
    | nil => exact absurd (List.cons.inj heq).1 hret
    | cons first pre =>
      obtain ⟨rfl, htail⟩ := List.cons.inj heq
      obtain ⟨before, hbefore⟩ := ih htail
      exact ⟨_, hbefore.append [word]⟩
  | @nested depth call inner words hcall hinner h ihinner ih =>
    intro pre after heq
    cases pre with
    | nil =>
      rw [(List.cons.inj heq).1] at hcall
      exact absurd hcall not_isCall_ret
    | cons first pre =>
      obtain ⟨rfl, htail⟩ := List.cons.inj heq
      -- The return stands inside the subroutine, at its end, or behind it.
      rcases List.append_eq_append_iff.mp htail with ⟨rest, rfl, hrest⟩ | ⟨rest, rfl, hrest⟩
      · cases rest with
        | nil => exact ⟨[], call, depth, inner, hcall, hinner, by simp⟩
        | cons second rest =>
          obtain ⟨rfl, hwords⟩ := List.cons.inj hrest
          obtain ⟨before, hbefore⟩ := ih hwords
          have hbehind := hbefore.append (call :: inner ++ [0x00ee])
          exact ⟨call :: inner ++ [0x00ee] ++ before, by simpa using hbehind⟩
      · cases rest with
        | nil => exact ⟨[], call, depth, pre, hcall, by simpa using hinner, by simp⟩
        | cons second rest =>
          obtain ⟨rfl, -⟩ := List.cons.inj hrest
          obtain ⟨before, hbefore⟩ := ihinner rfl
          exact ⟨_, hbefore.append [call]⟩

/-! ## On registers -/

namespace Registers

variable {r : Registers} {k : Fin 16} {depth : Nat} {word : Word} {words : List Word}

theorem run_append (r : Registers) (words words' : List Word) : r.run (words ++ words') =
    ((r.run words).1 ++ ((r.run words).2.run words').1, ((r.run words).2.run words').2) := by
  induction words generalizing r with
  | nil => rfl
  | cons word words ih =>
    rw [List.cons_append, run, ih]
    rfl

/-- None of the words fails. -/
def Succeeds (r : Registers) (words : List Word) : Prop :=
  ∀ outcome ∈ (r.run words).1, ∃ o, outcome = .ok o

theorem succeeds_cons : r.Succeeds (word :: words) ↔
    (∃ o, (r.execute word).1 = .ok o) ∧ (r.execute word).2.Succeeds words :=
  List.forall_mem_cons

theorem succeeds_append {words' : List Word} : r.Succeeds (words ++ words') ↔
    r.Succeeds words ∧ (r.run words).2.Succeeds words' := by
  unfold Succeeds
  rw [run_append]
  exact List.forall_mem_append

theorem slot?_of_toInt {sp : Int64} (h : sp.toInt = k.val) : slot? sp = some k := by
  have hrange : 0 ≤ sp.toInt ∧ sp.toInt < 16 := by omega
  rw [slot?, dif_pos hrange]
  refine congrArg some (Fin.ext ?_)
  show sp.toInt.toNat = k.val
  omega

theorem execute_call (hword : IsCall word) (hsp : r.sp.toInt = k.val) :
    ∃ o, r.execute word = (.ok o, { r with
      stack := r.stack.setIfInBounds k r.pc, sp := r.sp + 1, pc := lowAddress word }) := by
  rcases r.execute_cases word with ⟨rfl, -⟩ | ⟨-, mnemonic, hex⟩ | ⟨-, hno, -⟩
  · exact absurd hword not_isCall_ret
  · rw [hex, callAt, slot?_of_toInt hsp]
    exact ⟨_, rfl⟩
  · exact absurd ((and_top_digit word).mpr hword) hno

theorem execute_ret (hsp : r.sp.toInt = k.val + 1) :
    ∃ o, r.execute 0x00ee = (.ok o, { r with sp := r.sp - 1, pc := r.stack.get k }) := by
  have hdown : (r.sp - 1).toInt = k.val := by
    rw [toInt_sub_one (by omega)]
    omega
  rcases r.execute_cases 0x00ee with ⟨-, mnemonic, hex⟩ | ⟨hcall, -⟩ | ⟨hno, -⟩
  · rw [hex, ret, slot?_of_toInt hdown]
    exact ⟨_, rfl⟩
  · exact absurd hcall (by decide)
  · exact absurd rfl hno

theorem execute_other (hcall : ¬ IsCall word) (hret : word ≠ 0x00ee) :
    ∃ o r', r.execute word = (.ok o, r') ∧ r'.stack = r.stack ∧ r'.sp = r.sp := by
  rcases r.execute_cases word with ⟨hword, -⟩ | ⟨hword, -⟩ | ⟨-, -, o, r', hex, hstack, hsp, -⟩
  · exact absurd hword hret
  · exact absurd ((and_top_digit word).mp hword) hcall
  · exact ⟨o, r', hex, hstack, hsp⟩

theorem exists_slot_of_call (hword : IsCall word) (hok : ∃ o, (r.execute word).1 = .ok o) :
    ∃ k : Fin 16, r.sp.toInt = k.val := by
  cases hk : slot? r.sp with
  | some k => exact ⟨k, toInt_slot? hk⟩
  | none =>
    obtain ⟨o, ho⟩ := hok
    obtain ⟨err, herr⟩ :=
      (r.exists_error_iff word).mpr (Or.inr ⟨(and_top_digit word).mpr hword, hk⟩)
    rw [ho] at herr
    cases herr

/-- The stack pointer and the part of the stack below it are the same. -/
structure Keeps (r r' : Registers) : Prop where
  sp : r'.sp = r.sp
  stack : ∀ j : Fin 16, (j.val : Int) < r.sp.toInt → r'.stack.get j = r.stack.get j

theorem Keeps.trans {r₁ r₂ r₃ : Registers} (h : Keeps r₁ r₂) (h' : Keeps r₂ r₃) : Keeps r₁ r₃ where
  sp := h'.sp.trans h.sp
  stack j hj := (h'.stack j (by rw [h.sp]; exact hj)).trans (h.stack j hj)

theorem get_setIfInBounds (stack : Vector Word 16) (j : Fin 16) (a : Word) :
    (stack.setIfInBounds k a).get j = if j = k then a else stack.get j := by
  show (stack.setIfInBounds k a)[j.val] = _
  rw [Vector.getElem_setIfInBounds]
  simp only [Fin.ext_iff, eq_comm]
  rfl

theorem keeps_of_call {r' : Registers} (hword : IsCall word) (hsp : r.sp.toInt = k.val)
    (h : Keeps (r.execute word).2 r') :
    (∃ o, (r'.execute 0x00ee).1 = .ok o) ∧ Keeps r (r'.execute 0x00ee).2 ∧
      (r'.execute 0x00ee).2.pc = r.pc := by
  obtain ⟨_, hcall⟩ := execute_call hword hsp
  rw [hcall] at h
  have hup : (r.sp + 1).toInt = k.val + 1 := by
    rw [toInt_add_one (by omega), hsp]
  have hsp' : r'.sp = r.sp + 1 := h.sp
  obtain ⟨o, hret⟩ := execute_ret (r := r') (k := k) (by rw [hsp', hup])
  have hstack : ∀ j : Fin 16, j.val ≤ k.val →
      r'.stack.get j = if j = k then r.pc else r.stack.get j := by
    intro j hj
    rw [h.stack j (by rw [hup]; omega), get_setIfInBounds]
  rw [hret]
  refine ⟨⟨o, rfl⟩, ⟨?_, fun j hj => ?_⟩, ?_⟩
  · show r'.sp - 1 = r.sp
    rw [hsp']
    exact Int64.add_sub_cancel ..
  · have hne : j ≠ k := by
      rintro rfl
      omega
    exact (hstack j (by omega)).trans (if_neg hne)
  · exact (hstack k le_rfl).trans (if_pos rfl)

/-- **Balanced words that do not fail leave the stack as it was**, below the stack pointer. -/
theorem keeps_of_balanced (h : Balanced depth words) :
    ∀ {r : Registers}, r.Succeeds words → Keeps r (r.run words).2 := by
  induction h with
  | nil => exact fun _ => ⟨rfl, fun _ _ => rfl⟩
  | @other depth word words hcall hret h ih =>
    intro r hok
    obtain ⟨-, hrest⟩ := succeeds_cons.mp hok
    obtain ⟨o, r', hex, hstack, hsp⟩ := execute_other (r := r) hcall hret
    have hstep : Keeps r (r.execute word).2 := by
      rw [hex]
      exact ⟨hsp, fun j _ => by rw [hstack]⟩
    exact hstep.trans (ih hrest)
  | @nested depth call inner words hcall hinner h ihinner ih =>
    intro r hok
    obtain ⟨hfirst, hrest⟩ := succeeds_cons.mp hok
    obtain ⟨hbody, htail⟩ := succeeds_append.mp hrest
    obtain ⟨-, hlast⟩ := succeeds_cons.mp htail
    obtain ⟨k, hk⟩ := exists_slot_of_call hcall hfirst
    have hreturn := (keeps_of_call hcall hk (ihinner hbody)).2.1
    show Keeps r ((r.execute call).2.run (inner ++ _)).2
    rw [run_append]
    exact hreturn.trans (ih hlast)

/-- **Balanced words do not fail** where the stack has room for their calls. -/
theorem success_of_balanced (h : Balanced depth words) :
    ∀ {r : Registers} {k : Nat}, r.sp.toInt = k → k + depth ≤ 16 → r.Succeeds words := by
  induction h with
  | nil => exact fun _ _ _ h => absurd h (List.not_mem_nil)
  | other hcall hret h ih =>
    intro r k hsp hroom
    obtain ⟨o, r', hex, -, hsp'⟩ := execute_other (r := r) hcall hret
    refine succeeds_cons.mpr ?_
    rw [hex]
    exact ⟨⟨o, rfl⟩, ih (by rw [hsp']; exact hsp) hroom⟩
  | @nested depth call inner words hcall hinner h ihinner ih =>
    intro r k hsp hroom
    have hk : r.sp.toInt = (⟨k, by omega⟩ : Fin 16).val := hsp
    obtain ⟨o, hex⟩ := execute_call hcall hk
    have hup : (r.execute call).2.sp.toInt = (k + 1 : Nat) := by
      rw [hex]
      show (r.sp + 1).toInt = _
      rw [toInt_add_one (by omega), hsp]
      rfl
    have hbody := ihinner hup (by omega)
    obtain ⟨hret, hreturn, -⟩ := keeps_of_call hcall hk (keeps_of_balanced hinner hbody)
    refine succeeds_cons.mpr ⟨⟨o, by rw [hex]⟩, succeeds_append.mpr ⟨hbody, ?_⟩⟩
    exact succeeds_cons.mpr ⟨hret, ih (by rw [hreturn.sp]; exact hsp) hroom⟩

/-- **A return goes back to where its call was.** -/
theorem pc_of_returns {before pre : List Word} (h : Returns before pre) (hok : r.Succeeds pre) :
    (r.run (pre ++ [0x00ee])).2.pc = (r.run before).2.pc := by
  obtain ⟨call, depth, inner, hcall, hinner, rfl⟩ := h
  obtain ⟨-, hrest⟩ := succeeds_append.mp hok
  obtain ⟨hfirst, hbody⟩ := succeeds_cons.mp hrest
  obtain ⟨k, hk⟩ := exists_slot_of_call hcall hfirst
  have hreturn := (keeps_of_call hcall hk (keeps_of_balanced hinner hbody)).2.2
  rw [run_append, run_append]
  exact hreturn

end Registers

/-! ## The machine state -/

/-- The parts of the machine, with the stack pointer at a height. Other names may hold anything. -/
structure HoldsMachine (c : Cells) (height : Nat) : Prop where
  v : HoldsInts c "V" 255
  stack : HoldsInts c "stack" 65535
  i : HoldsInt c "I" 0 65535
  pc : HoldsInt c "pc" 0 65535
  sp : c.get? "sp" = some (.scalar (.ofNat height))
  dt : HoldsInt c "DT" 0 255
  st : HoldsInt c "ST" 0 255
  seed : ∃ n, c.get? "seed" = some (.scalar (.int n))

section

variable {w : Nat} {c : Cells} {name : String}

theorem exists_ofWord (hw : w ≤ 32) {n : Int64} (hlow : 0 ≤ n.toInt) (hhigh : n.toInt ≤ 2 ^ w - 1) :
    ∃ a : BitVec w, Value.int n = .ofWord a := by
  have hlt : n.toInt.toNat < 2 ^ w := by
    have hint : (n.toInt.toNat : Int) < (2 ^ w : Nat) := by
      push_cast
      omega
    exact_mod_cast hint
  refine ⟨BitVec.ofNat w n.toInt.toNat, congrArg Value.int (Int64.toInt_inj.mp ?_)⟩
  rw [toInt_ofNat_toNat hw, BitVec.toNat_ofNat, Nat.mod_eq_of_lt hlt, Int.toNat_of_nonneg hlow]

theorem exists_word (hw : w ≤ 32) (h : HoldsInt c name 0 (2 ^ w - 1)) :
    ∃ a : BitVec w, c.get? name = some (.scalar (.ofWord a)) := by
  obtain ⟨n, hn, hlow, hhigh⟩ := h
  obtain ⟨a, ha⟩ := exists_ofWord hw hlow hhigh
  exact ⟨a, by rw [hn, ha]⟩

theorem exists_words (hw : w ≤ 32) (h : HoldsInts c name (2 ^ w - 1)) :
    ∃ a : Vector (BitVec w) 16, c.get? name = some (wordCell a) :=
  h.exists_wordCell fun _ => exists_ofWord hw

theorem Registers.holdsMachine (r : Registers) (c : Cells) {height : Nat}
    (h : r.sp = Int64.ofNat height) : HoldsMachine (r.onto c) height where
  v := holdsInts_words (by decide) (r.get?_onto_v c)
  stack := holdsInts_words (by decide) (r.get?_onto_stack c)
  i := holdsInt_word (by decide) (r.get?_onto_i c)
  pc := holdsInt_word (by decide) (r.get?_onto_pc c)
  sp := by rw [r.get?_onto_sp, h]; rfl
  dt := holdsInt_word (by decide) (r.get?_onto_dt c)
  st := holdsInt_word (by decide) (r.get?_onto_st c)
  seed := ⟨r.seed, r.get?_onto_seed c⟩

theorem HoldsMachine.exists_onto {height : Nat} (h : HoldsMachine c height) :
    ∃ r : Registers, r.sp = Int64.ofNat height ∧ c = r.onto c := by
  obtain ⟨v, hv⟩ := exists_words (w := 8) (by decide) h.v
  obtain ⟨stack, hstack⟩ := exists_words (w := 16) (by decide) h.stack
  obtain ⟨i, hi⟩ := exists_word (w := 16) (by decide) h.i
  obtain ⟨pc, hpc⟩ := exists_word (w := 16) (by decide) h.pc
  obtain ⟨dt, hdt⟩ := exists_word (w := 8) (by decide) h.dt
  obtain ⟨st, hst⟩ := exists_word (w := 8) (by decide) h.st
  obtain ⟨seed, hseed⟩ := h.seed
  have hsp : c.get? "sp" = some (.scalar (.int (Int64.ofNat height))) := h.sp
  refine ⟨⟨v, stack, i, pc, Int64.ofNat height, dt, st, seed⟩, rfl, Cells.ext_get? fun name => ?_⟩
  by_cases hname : name ∈ partNames
  · simp only [partNames, List.mem_cons, List.not_mem_nil, or_false] at hname
    rcases hname with rfl | rfl | rfl | rfl | rfl | rfl | rfl | rfl <;> simp [*]
  · exact (Registers.get?_onto_of_notMem _ c hname).symm

theorem Registers.element?_stack (r : Registers) (j : Fin 16) :
    (r.onto c).element? "stack" j = some (.ofWord (r.stack.get j)) := by
  rw [Cells.element?_of_array (r.get?_onto_stack c), getElem?_words]

end

/-- **Calls and returns nest.** From a machine whose stack pointer is at some height, words with a
return for each call, nested no deeper than there is room above, and with any other words between,
never fail. Each return goes back to where its call was, and at the end the stack pointer and the
stack below it are as they were. -/
theorem executeAll_balanced (requests : List (Request Cells)) {c : Cells} {height depth : Nat}
    {words : List Word} (hc : HoldsMachine c height) (hroom : height + depth ≤ 16)
    (hwords : Balanced depth words) :
    ∃ fresh : Processor Cells, processor = .ok fresh ∧
      let p := fresh.after requests
      let run := p.executeAll c words
      (∀ outcome ∈ run.outcomes, ∃ o, outcome = .ok o) ∧
      (∀ pre after, words = pre ++ 0x00ee :: after →
        (∃ before, Returns before pre) ∧ ∀ before, Returns before pre →
          (p.executeAll c (pre ++ [0x00ee])).state.get? "pc" =
            (p.executeAll c before).state.get? "pc") ∧
      run.state.get? "sp" = some (.scalar (.ofNat height)) ∧
      ∀ j < height, run.state.element? "stack" j = c.element? "stack" j := by
  obtain ⟨fresh, hfresh⟩ := exists_processor (σ := Cells)
  obtain ⟨r, hsp, hr⟩ := hc.exists_onto
  have hheight : r.sp.toInt = height := by
    rw [hsp]
    exact Int64.toInt_ofNat_of_lt (by omega)
  have hp := recalls_after (make_eq_ok_iff.mp hfresh).2.1 requests
  -- The memo plays no part: words do to the machine state what they do to the registers.
  have hrun : ∀ ws, ((fresh.after requests).executeAll c ws).outcomes = (r.run ws).1 ∧
      ((fresh.after requests).executeAll c ws).state = (r.run ws).2.onto c := by
    intro ws
    have hws := run_onto hfresh hp ws r c
    rw [← hr] at hws
    exact ⟨hws.1, hws.2.1⟩
  have hpc : ∀ ws, ((fresh.after requests).executeAll c ws).state.get? "pc" =
      some (.scalar (.ofWord (r.run ws).2.pc)) := by
    intro ws
    rw [(hrun ws).2, Registers.get?_onto_pc]
  have hok := Registers.success_of_balanced hwords hheight hroom
  have hkeeps := Registers.keeps_of_balanced hwords hok
  refine ⟨fresh, hfresh, ?_⟩
  intro p run
  refine ⟨?_, fun pre after heq => ⟨hwords.exists_returns heq, fun before hbefore => ?_⟩, ?_, ?_⟩
  · rw [(hrun words).1]
    exact hok
  · rw [heq] at hok
    rw [hpc, hpc, Registers.pc_of_returns hbefore (Registers.succeeds_append.mp hok).1]
  · rw [(hrun words).2, Registers.get?_onto_sp, hkeeps.sp, hsp]
    rfl
  · intro j hj
    have hstack := hkeeps.stack ⟨j, by omega⟩ (by rw [hheight]; exact_mod_cast hj)
    have hbefore : c.element? "stack" j = _ := congrArg (Cells.element? · "stack" j) hr
    rw [(hrun words).2, hbefore]
    rw [Registers.element?_stack _ ⟨j, by omega⟩, Registers.element?_stack r ⟨j, by omega⟩, hstack]

/-- Two subroutines on the last two places of the stack, with words that have no program and that
are no operations. -/
theorem executeAll_nested : ∃ fresh : Processor Cells, processor = .ok fresh ∧
    let c := Registers.onto { start with sp := 14 } ∅
    let p := fresh.after [.execute 0x00ee initial]
    let words : List Word := [0x2206, 0x00e0, 0x2300, 0x00ee, 0xffff, 0x00ee]
    HoldsMachine c 14 ∧ Balanced 2 words ∧ Returns [] (words.take 5) ∧
      (∀ outcome ∈ (p.executeAll c words).outcomes, ∃ o, outcome = .ok o) ∧
      (p.executeAll c words).state.get? "pc" = c.get? "pc" ∧
      (p.executeAll c words).state.get? "sp" = some (.scalar (.ofNat 14)) := by
  have hc : HoldsMachine (Registers.onto { start with sp := 14 } ∅) 14 :=
    Registers.holdsMachine _ ∅ (by decide)
  have hrest : Balanced 1 [0xffff] := .other (by decide) (by decide) .nil
  have hinner : Balanced 1 [0x00e0, 0x2300, 0x00ee, 0xffff] :=
    .other (by decide) (by decide) (@Balanced.nested 0 0x2300 [] [0xffff] (by decide) .nil hrest)
  have hwords : Balanced 2 [0x2206, 0x00e0, 0x2300, 0x00ee, 0xffff, 0x00ee] :=
    .nested (by decide) hinner .nil
  have hreturns : Returns [] [0x2206, 0x00e0, 0x2300, 0x00ee, 0xffff] :=
    ⟨0x2206, 1, _, by decide, hinner, rfl⟩
  obtain ⟨fresh, hfresh, hok, hpc, hsp, -⟩ :=
    executeAll_balanced [.execute 0x00ee initial] hc (by decide) hwords
  obtain ⟨-, hback⟩ := hpc [0x2206, 0x00e0, 0x2300, 0x00ee, 0xffff] [] rfl
  exact ⟨fresh, hfresh, hc, hwords, hreturns, hok, hback [] hreturns, hsp⟩

end Isa16.Chip8
