import Isa16.Proofs.Program.Evaluation
import Isa16.Proofs.Program.Uses

/-!
# What is left of a run that fails

* `Activation.Quiet`: a step of an activation leaves its frame as it was, also where it fails.
  `quiet_code`: so does the code of an expression that calls nothing.
* `Advances`: a statement in front is completed, or a branch is taken; an assignment writes.
  `Runs`: a run, with what it has written. `Fails`: an expression statement, an assignment or a
  condition fails in front.
* `runAll_eq_error_iff`: statements fail where a run comes to one that fails.
* `Advances.replay`, `Runs.replay`: what statements that call nothing change is what they write.
* **`Program.call_atomic`**: a call that fails leaves what the assignments before the failure wrote.
-/

namespace Isa16

variable {σ α β : Type} {n : Nat}

/-! ## Steps that leave the frame alone -/

/-- Whatever the frame, the step ends with a result or an error and leaves the frame as it was. -/
def Activation.Quiet (x : Activation σ n α) : Prop :=
  ∀ frame, ∃ result, x frame = Activation.ofExcept result frame

namespace Activation.Quiet

theorem pure (a : α) : Quiet (Pure.pure a : Activation σ n α) :=
  fun _ => ⟨.ok a, rfl⟩

theorem ofExcept (r : Except RunError α) : Quiet (Activation.ofExcept r : Activation σ n α) :=
  fun _ => ⟨r, rfl⟩

theorem bind {x : Activation σ n α} {f : α → Activation σ n β} (hx : x.Quiet)
    (hf : ∀ a, (f a).Quiet) : (x >>= f).Quiet := by
  intro frame
  obtain ⟨r, hr⟩ := hx frame
  cases r with
  | ok a =>
    have hok : x frame = .ok a frame := hr
    rw [bind_of_ok hok]
    exact hf a frame
  | error e => exact ⟨.error e, bind_of_error hr⟩

theorem get_bind {f : Frame σ n → Activation σ n β} (hf : ∀ frame, (f frame).Quiet) :
    Quiet (get >>= f) :=
  fun frame => hf frame frame

theorem load (location : Location n) :
    Quiet (Activation.load location : Activation Cells n Value) := by
  intro frame
  cases location with
  | slot i => exact ⟨.ok _, rfl⟩
  | operand index => exact ⟨.ok _, rfl⟩
  | context path =>
    refine ⟨frame.state.load path, ?_⟩
    cases h : frame.state.load path with
    | ok v =>
      show onState (MachineState.load path) frame = _
      rw [onState, Cells.load_of_ok h]
      rfl
    | error e =>
      show onState (MachineState.load path) frame = _
      rw [onState, Cells.load_of_error h]
      rfl

theorem eq_of_ok {x : Activation σ n α} (hx : x.Quiet) {frame frame' : Frame σ n} {a : α}
    (h : x frame = .ok a frame') : frame' = frame := by
  obtain ⟨r, hr⟩ := hx frame
  rw [h] at hr
  cases r <;> cases hr
  rfl

theorem eq_of_error {x : Activation σ n α} (hx : x.Quiet) {frame frame' : Frame σ n}
    {e : RunError} (h : x frame = .error e frame') : frame' = frame := by
  obtain ⟨r, hr⟩ := hx frame
  rw [h] at hr
  cases r <;> cases hr
  rfl

end Activation.Quiet

open Activation

/-! ## Expressions that call nothing -/

/-- Nothing is called among the uses, neither as a function nor as a constructor. -/
def CallFree (uses : List Use) : Prop :=
  ∀ callee, .call callee ∉ uses

theorem CallFree.mono {uses uses' : List Use} (h : CallFree uses) (hsub : uses' ⊆ uses) :
    CallFree uses' :=
  fun callee hmem => h callee (hsub hmem)

section Trees

variable {s : Scope Cells} {cs : List (Code Cells s.slots)}

theorem quiet_evalKeys (h : ∀ c ∈ cs, c.eval.Quiet) : (Code.evalKeys cs).Quiet := by
  induction cs with
  | nil =>
    rw [Code.evalKeys]
    exact .pure _
  | cons c cs ih =>
    obtain ⟨hc, hcs⟩ := List.forall_mem_cons.mp h
    rw [Code.evalKeys]
    exact hc.bind fun v => (Quiet.ofExcept _).bind fun key => (ih hcs).bind fun keys => .pure _

theorem quiet_locate {misuse : CompileFault} {e : Expr} {place : Place Cells s.slots}
    {keys : Except CompileFault (List (Code Cells s.slots))}
    (h : s.placeOf misuse e keys = .ok place)
    (hkeys : ∀ cs, keys = .ok cs → ∀ c ∈ cs, c.eval.Quiet) : place.locate.Quiet := by
  rcases Scope.placeOf_cases h with ⟨-, -, cs, hcs, rfl⟩ | ⟨key, index, -, hcs, rfl⟩ |
    ⟨name, i, -, -, rfl⟩
  · rw [Place.locate]
    exact (quiet_evalKeys (hkeys cs hcs)).bind fun _ => .pure _
  · have hindex := hkeys _ hcs index List.mem_cons_self
    rw [Place.locate]
    exact hindex.bind fun v => (Quiet.ofExcept _).bind fun i => .get_bind fun frame =>
      (Quiet.ofExcept _).bind fun _ => .pure _
  · rw [Place.locate]
    exact .pure _

theorem quiet_read {place : Place Cells s.slots} (h : place.locate.Quiet) :
    (Code.read place).eval.Quiet := by
  rw [Code.eval]
  exact h.bind fun location => .load location

theorem quiet_literal (v : Value) : (Code.literal v : Code Cells s.slots).eval.Quiet := by
  rw [Code.eval]
  exact .pure v

theorem quiet_append {last : Code Cells s.slots} (hcs : ∀ c ∈ cs, c.eval.Quiet)
    (hlast : last.eval.Quiet) : ∀ c ∈ cs ++ [last], c.eval.Quiet :=
  List.forall_mem_append.mpr ⟨hcs, List.forall_mem_singleton.mpr hlast⟩

mutual

/-- **Code that calls nothing** leaves every frame as it was. -/
theorem quiet_code : ∀ {e : Expr} {c : Code Cells s.slots}, CallFree e.uses → s.code e = .ok c →
    c.eval.Quiet
  | .int _, c, _, h | .bool _, c, _, h | .text _, c, _, h => by
    rw [Scope.code] at h
    cases h
    exact quiet_literal _
  | .ident name, c, _, h => by
    rw [Scope.code, map_eq_ok] at h
    obtain ⟨place, hplace, rfl⟩ := h
    refine quiet_read (quiet_locate hplace fun cs hcs => ?_)
    cases hcs
    simp
  | .member object name, c, hfree, h => by
    rw [Scope.code] at h
    obtain ⟨place, hplace, rfl⟩ := map_eq_ok.mp h
    refine quiet_read (quiet_locate hplace fun cs hcs => ?_)
    obtain ⟨cs', hcs', rfl⟩ := map_eq_ok.mp hcs
    exact quiet_append (quiet_keys (hfree.mono (by simp [Expr.uses])) hcs') (quiet_literal _)
  | .index object key, c, hfree, h => by
    rw [Scope.code, map_eq_ok] at h
    obtain ⟨place, hplace, rfl⟩ := h
    refine quiet_read (quiet_locate hplace fun cs hcs => ?_)
    obtain ⟨cs', hcs', hcs⟩ := bind_eq_ok.mp hcs
    obtain ⟨last, hlast, hcs⟩ := bind_eq_ok.mp hcs
    cases hcs
    exact quiet_append (quiet_keys (hfree.mono (by simp [Expr.uses])) hcs')
      (quiet_code (hfree.mono (by simp [Expr.uses])) hlast)
  | .call callee args, _, hfree, _ | .construct callee args, _, hfree, _ =>
    absurd List.mem_cons_self (hfree callee)
  | .unary op operand, c, hfree, h => by
    rw [Scope.code, bind_eq_ok] at h
    obtain ⟨c', hc', h⟩ := h
    cases h
    rw [Code.eval]
    exact (quiet_code (hfree.mono (by simp [Expr.uses])) hc').bind fun v => .ofExcept _
  | .binary op lhs rhs, c, hfree, h => by
    rw [Scope.code, bind_eq_ok] at h
    obtain ⟨l, hl, h⟩ := h
    obtain ⟨r, hr, h⟩ := bind_eq_ok.mp h
    cases h
    rw [Code.eval]
    refine (quiet_code (hfree.mono (by simp [Expr.uses])) hl).bind fun a =>
      (Quiet.ofExcept _).bind fun settled => ?_
    cases settled with
    | some v => exact .pure v
    | none =>
      exact (quiet_code (hfree.mono (by simp [Expr.uses])) hr).bind fun b => .ofExcept _
  | .conditional condition whenTrue whenFalse, c, hfree, h => by
    rw [Scope.code, bind_eq_ok] at h
    obtain ⟨c', hc', h⟩ := h
    obtain ⟨t, ht, h⟩ := bind_eq_ok.mp h
    obtain ⟨f, hf, h⟩ := bind_eq_ok.mp h
    cases h
    rw [Code.eval]
    refine (quiet_code (hfree.mono (by simp [Expr.uses])) hc').bind fun v => ?_
    split
    · exact quiet_code (hfree.mono (by simp [Expr.uses])) ht
    · exact quiet_code (hfree.mono (by simp [Expr.uses])) hf

theorem quiet_keys : ∀ {e : Expr} {cs : List (Code Cells s.slots)}, CallFree e.uses →
    s.keys e = .ok cs → ∀ c ∈ cs, c.eval.Quiet
  | .member object name, cs, hfree, h => by
    rw [Scope.keys, bind_eq_ok] at h
    obtain ⟨cs', hcs', h⟩ := h
    cases h
    exact quiet_append (quiet_keys (hfree.mono (by simp [Expr.uses])) hcs') (quiet_literal _)
  | .index object key, cs, hfree, h => by
    rw [Scope.keys, bind_eq_ok] at h
    obtain ⟨cs', hcs', h⟩ := h
    obtain ⟨last, hlast, h⟩ := bind_eq_ok.mp h
    cases h
    exact quiet_append (quiet_keys (hfree.mono (by simp [Expr.uses])) hcs')
      (quiet_code (hfree.mono (by simp [Expr.uses])) hlast)
  | .ident _, _, _, h | .int _, _, _, h | .bool _, _, _, h | .text _, _, _, h
  | .call .., _, _, h | .construct .., _, _, h | .unary .., _, _, h | .binary .., _, _, h
  | .conditional .., _, _, h => by
    cases h
    simp

end

end Trees

/-! ## Runs step by step -/

/-- What an assignment writes. -/
structure Write (n : Nat) where
  location : Location n
  value : Value

section Runs

variable [MachineState σ]

/-- Writes one after the other. -/
def Write.replay : List (Write n) → Activation σ n Unit
  | [] => return ()
  | w :: ws => do
    Activation.store w.location w.value
    Write.replay ws

/-- The statement in front is completed, or the branch that it takes is put in its place. An
assignment has written. -/
inductive Advances : List (Action σ n) → Frame σ n → List (Write n) → List (Action σ n) →
    Frame σ n → Prop
  | eval {e : Code σ n} {rest : List (Action σ n)} {f g : Frame σ n} {v : Value}
    (h : e.eval f = .ok v g) : Advances (.eval e :: rest) f [] rest g
  | assign {target : Place σ n} {e : Code σ n} {rest : List (Action σ n)} {f f₁ f₂ g : Frame σ n}
    {location : Location n} {v : Value} (hlocate : target.locate f = .ok location f₁)
    (heval : e.eval f₁ = .ok v f₂) (hstore : Activation.store location v f₂ = .ok () g) :
    Advances (.assign target e :: rest) f [⟨location, v⟩] rest g
  | branch {e : Code σ n} {whenTrue whenFalse rest : List (Action σ n)} {f g : Frame σ n}
    {v : Value} (h : e.eval f = .ok v g) : Advances (.branch e whenTrue whenFalse :: rest) f []
      ((if v.toBool then whenTrue else whenFalse) ++ rest) g

/-- A run, with all that it has written. -/
inductive Runs : List (Action σ n) → Frame σ n → List (Write n) → List (Action σ n) →
    Frame σ n → Prop
  | refl (body : List (Action σ n)) (f : Frame σ n) : Runs body f [] body f
  | step {body mid left : List (Action σ n)} {f g h : Frame σ n} {ws ws' : List (Write n)}
    (hstep : Advances body f ws mid g) (hrest : Runs mid g ws' left h) :
    Runs body f (ws ++ ws') left h

/-- The expression statement, the assignment or the condition in front fails. -/
inductive Fails : List (Action σ n) → Frame σ n → RunError → Frame σ n → Prop
  | eval {e : Code σ n} {rest : List (Action σ n)} {f g : Frame σ n} {x : RunError}
    (h : e.eval f = .error x g) : Fails (.eval e :: rest) f x g
  | target {target : Place σ n} {e : Code σ n} {rest : List (Action σ n)} {f g : Frame σ n}
    {x : RunError} (h : target.locate f = .error x g) : Fails (.assign target e :: rest) f x g
  | value {target : Place σ n} {e : Code σ n} {rest : List (Action σ n)} {f f₁ g : Frame σ n}
    {location : Location n} {x : RunError} (hlocate : target.locate f = .ok location f₁)
    (heval : e.eval f₁ = .error x g) : Fails (.assign target e :: rest) f x g
  | store {target : Place σ n} {e : Code σ n} {rest : List (Action σ n)} {f f₁ f₂ g : Frame σ n}
    {location : Location n} {v : Value} {x : RunError}
    (hlocate : target.locate f = .ok location f₁) (heval : e.eval f₁ = .ok v f₂)
    (hstore : Activation.store location v f₂ = .error x g) : Fails (.assign target e :: rest) f x g
  | condition {e : Code σ n} {whenTrue whenFalse rest : List (Action σ n)} {f g : Frame σ n}
    {x : RunError} (h : e.eval f = .error x g) :
    Fails (.branch e whenTrue whenFalse :: rest) f x g

variable {body left rest : List (Action σ n)} {f g h : Frame σ n} {ws ws' : List (Write n)}
  {x : RunError}

theorem Runs.single (hstep : Advances body f ws left g) : Runs body f ws left g := by
  have hrun := Runs.step hstep (.refl left g)
  rwa [List.append_nil] at hrun

theorem Runs.trans {mid : List (Action σ n)} (hfirst : Runs body f ws mid g)
    (hrest : Runs mid g ws' left h) : Runs body f (ws ++ ws') left h := by
  induction hfirst with
  | refl => exact hrest
  | step hstep _ ih =>
    rw [List.append_assoc]
    exact .step hstep (ih hrest)

theorem runAll_append (body rest : List (Action σ n)) : Action.runAll (body ++ rest) = (do
    Action.runAll body
    Action.runAll rest : Activation σ n Unit) := by
  induction body with
  | nil => rw [List.nil_append, Action.runAll, pure_bind]
  | cons a body ih => simp only [List.cons_append, Action.runAll, ih, bind_assoc]

theorem Advances.runAll_eq (hstep : Advances body f ws left g) :
    Action.runAll body f = Action.runAll left g := by
  cases hstep with
  | @eval e _ _ _ _ heval =>
    have hrun : (Action.eval e).run f = .ok () g := by
      rw [Action.run, bind_of_ok heval]
      rfl
    rw [Action.runAll, bind_of_ok hrun]
  | @assign target e _ _ _ _ _ _ _ hlocate heval hstore =>
    have hrun : (Action.assign target e).run f = .ok () g := by
      rw [Action.run, bind_of_ok hlocate, bind_of_ok heval, hstore]
    rw [Action.runAll, bind_of_ok hrun]
  | branch heval =>
    rw [Action.runAll, Action.run, bind_assoc, bind_of_ok heval, runAll_append]
    split <;> rfl

theorem Runs.runAll_eq (hrun : Runs body f ws left g) :
    Action.runAll body f = Action.runAll left g := by
  induction hrun with
  | refl => rfl
  | step hstep _ ih => exact hstep.runAll_eq.trans ih

theorem Fails.runAll_eq (hfails : Fails body f x g) : Action.runAll body f = .error x g := by
  cases hfails with
  | eval heval =>
    rw [Action.runAll, Action.run]
    exact bind_of_error (bind_of_error heval)
  | target hlocate =>
    rw [Action.runAll, Action.run]
    exact bind_of_error (bind_of_error hlocate)
  | value hlocate heval =>
    rw [Action.runAll, Action.run]
    refine bind_of_error ?_
    rw [bind_of_ok hlocate]
    exact bind_of_error heval
  | store hlocate heval hstore =>
    rw [Action.runAll, Action.run]
    refine bind_of_error ?_
    rw [bind_of_ok hlocate, bind_of_ok heval, hstore]
  | condition heval =>
    rw [Action.runAll, Action.run]
    exact bind_of_error (bind_of_error heval)

/-- The statements run on to the rest, or to a statement that fails. -/
def Settles (body rest : List (Action σ n)) (f : Frame σ n) : Prop :=
  (∃ ws g, Runs body f ws rest g) ∨
    ∃ ws left g x h, Runs body f ws left g ∧ Fails left g x h

theorem Settles.after {mid : List (Action σ n)} (hmid : Settles mid rest g)
    (hrun : Runs body f ws mid g) : Settles body rest f := by
  rcases hmid with ⟨ws', h, hrest⟩ | ⟨ws', left, h, x, i, hrest, hfails⟩
  · exact Or.inl ⟨_, h, hrun.trans hrest⟩
  · exact Or.inr ⟨_, left, h, x, i, hrun.trans hrest, hfails⟩

theorem Fails.settles (hfails : Fails body f x g) : Settles body rest f :=
  Or.inr ⟨_, body, f, x, g, .refl body f, hfails⟩

mutual

theorem settles_action : ∀ (a : Action σ n) (rest : List (Action σ n)) (f : Frame σ n),
    Settles (a :: rest) rest f
  | .eval e, rest, f => by
    cases heval : e.eval f with
    | ok v g => exact Or.inl ⟨_, g, .single (.eval heval)⟩
    | error x g => exact (Fails.eval heval).settles
  | .assign target e, rest, f => by
    cases hlocate : target.locate f with
    | error x g => exact (Fails.target hlocate).settles
    | ok location f₁ =>
      cases heval : e.eval f₁ with
      | error x g => exact (Fails.value hlocate heval).settles
      | ok v f₂ =>
        cases hstore : Activation.store location v f₂ with
        | error x g => exact (Fails.store hlocate heval hstore).settles
        | ok _ g => exact Or.inl ⟨_, g, .single (.assign hlocate heval hstore)⟩
  | .branch e whenTrue whenFalse, rest, f => by
    cases heval : e.eval f with
    | error x g => exact (Fails.condition heval).settles
    | ok v g =>
      have hstep : Runs (.branch e whenTrue whenFalse :: rest) f _ _ g := .single (.branch heval)
      refine Settles.after ?_ hstep
      split
      · exact settles_actions whenTrue rest g
      · exact settles_actions whenFalse rest g

theorem settles_actions : ∀ (body rest : List (Action σ n)) (f : Frame σ n),
    Settles (body ++ rest) rest f
  | [], rest, f => Or.inl ⟨[], f, .refl rest f⟩
  | a :: body, rest, f => by
    rcases settles_action a (body ++ rest) f with ⟨ws, g, hrun⟩ | hfails
    · exact (settles_actions body rest g).after hrun
    · exact Or.inr hfails

end

/-- **Statements fail** where a run comes to one that fails. -/
theorem runAll_eq_error_iff : Action.runAll body f = .error x h ↔
    ∃ ws left g, Runs body f ws left g ∧ Fails left g x h := by
  constructor
  · intro herror
    have hsettles := settles_actions body [] f
    rw [List.append_nil] at hsettles
    rcases hsettles with ⟨ws, g, hrun⟩ | ⟨ws, left, g, x', h', hrun, hfails⟩
    · rw [hrun.runAll_eq] at herror
      cases herror
    · rw [hrun.runAll_eq, hfails.runAll_eq] at herror
      cases herror
      exact ⟨ws, left, g, hrun, hfails⟩
  · rintro ⟨ws, left, g, hrun, hfails⟩
    rw [hrun.runAll_eq, hfails.runAll_eq]

/-! ## Statements that call nothing -/

mutual

/-- The expressions and the places of the statement leave the frame alone. -/
def Action.Quiet : Action σ n → Prop
  | .eval e => e.eval.Quiet
  | .assign target e => target.locate.Quiet ∧ e.eval.Quiet
  | .branch e whenTrue whenFalse =>
    e.eval.Quiet ∧ Action.QuietAll whenTrue ∧ Action.QuietAll whenFalse

/-- So do those of all statements. -/
def Action.QuietAll : List (Action σ n) → Prop
  | [] => True
  | a :: body => a.Quiet ∧ Action.QuietAll body

end

theorem quietAll_append (hbody : Action.QuietAll body) (hrest : Action.QuietAll rest) :
    Action.QuietAll (body ++ rest) := by
  induction body with
  | nil => exact hrest
  | cons a body ih => exact ⟨hbody.1, ih hbody.2⟩

theorem Write.replay_append (hws : Write.replay ws f = .ok () g) (ws' : List (Write n)) :
    Write.replay (ws ++ ws') f = Write.replay ws' g := by
  induction ws generalizing f with
  | nil =>
    cases hws
    rfl
  | cons w ws ih =>
    rw [List.cons_append, replay]
    rw [replay] at hws
    cases hstore : Activation.store w.location w.value f with
    | ok _ f' =>
      rw [bind_of_ok hstore] at hws ⊢
      exact ih hws
    | error x f' =>
      rw [bind_of_error hstore] at hws
      cases hws

/-- **What a step changes is what it writes.** -/
theorem Advances.replay (hstep : Advances body f ws left g) (hquiet : Action.QuietAll body) :
    Write.replay ws f = .ok () g ∧ Action.QuietAll left := by
  cases hstep with
  | eval heval =>
    obtain ⟨he, hrest⟩ := hquiet
    rw [Quiet.eq_of_ok he heval]
    exact ⟨rfl, hrest⟩
  | assign hlocate heval hstore =>
    obtain ⟨⟨htarget, he⟩, hrest⟩ := hquiet
    rw [Quiet.eq_of_ok he heval, Quiet.eq_of_ok htarget hlocate] at hstore
    refine ⟨?_, hrest⟩
    rw [Write.replay, bind_of_ok hstore]
    rfl
  | branch heval =>
    obtain ⟨⟨he, htrue, hfalse⟩, hrest⟩ := hquiet
    rw [Quiet.eq_of_ok he heval]
    refine ⟨rfl, ?_⟩
    split
    · exact quietAll_append htrue hrest
    · exact quietAll_append hfalse hrest

/-- **What a run changes is what it writes.** -/
theorem Runs.replay (hrun : Runs body f ws left g) (hquiet : Action.QuietAll body) :
    Write.replay ws f = .ok () g ∧ Action.QuietAll left := by
  induction hrun with
  | refl => exact ⟨rfl, hquiet⟩
  | step hstep _ ih =>
    obtain ⟨hfirst, hmid⟩ := hstep.replay hquiet
    obtain ⟨hlast, hleft⟩ := ih hmid
    exact ⟨(Write.replay_append hfirst _).trans hlast, hleft⟩

end Runs

section Statements

variable {s : Scope Cells}

theorem frame_of_store_error {location : Location n} {v : Value} {f g : Frame Cells n}
    {x : RunError} (h : Activation.store location v f = .error x g) : g = f := by
  cases location with
  | slot i => cases h
  | operand index => cases h
  | context path =>
    change onState (MachineState.store path v) f = _ at h
    unfold onState at h
    cases hstore : f.state.store path v with
    | ok c =>
      rw [Cells.store_of_ok hstore] at h
      cases h
    | error e =>
      rw [Cells.store_of_error hstore] at h
      cases h
      rfl

theorem Fails.frame_eq {body : List (Action Cells n)} {f g : Frame Cells n} {x : RunError}
    (h : Fails body f x g) (hquiet : Action.QuietAll body) : g = f := by
  cases h with
  | eval heval => exact Quiet.eq_of_error hquiet.1 heval
  | target hlocate => exact Quiet.eq_of_error hquiet.1.1 hlocate
  | value hlocate heval =>
    rw [Quiet.eq_of_error hquiet.1.2 heval]
    exact Quiet.eq_of_ok hquiet.1.1 hlocate
  | store hlocate heval hstore =>
    rw [frame_of_store_error hstore, Quiet.eq_of_ok hquiet.1.2 heval]
    exact Quiet.eq_of_ok hquiet.1.1 hlocate
  | condition heval => exact Quiet.eq_of_error hquiet.1.1 heval

mutual

theorem quiet_action : ∀ {stmt : Stmt} {a : Action Cells s.slots}, CallFree stmt.uses →
    s.action stmt = .ok a → a.Quiet
  | .expr e, a, hfree, h => by
    rw [Scope.action, bind_eq_ok] at h
    obtain ⟨c, hc, h⟩ := h
    cases h
    exact quiet_code hfree hc
  | .assign target value, a, hfree, h => by
    rw [Scope.action, bind_eq_ok] at h
    obtain ⟨place, hplace, h⟩ := h
    obtain ⟨c, hc, h⟩ := bind_eq_ok.mp h
    cases h
    exact ⟨quiet_locate hplace fun cs hcs => quiet_keys (hfree.mono (by simp [Stmt.uses])) hcs,
      quiet_code (hfree.mono (by simp [Stmt.uses])) hc⟩
  | .ite condition whenTrue whenFalse, a, hfree, h => by
    rw [Scope.action, bind_eq_ok] at h
    obtain ⟨c, hc, h⟩ := h
    obtain ⟨t, ht, h⟩ := bind_eq_ok.mp h
    obtain ⟨f, hf, h⟩ := bind_eq_ok.mp h
    cases h
    exact ⟨quiet_code (hfree.mono (by simp [Stmt.uses])) hc,
      quiet_actions (hfree.mono (by simp [Stmt.uses])) ht,
      quiet_actions (hfree.mono (by simp [Stmt.uses])) hf⟩

/-- **Statements that call nothing** leave the frame alone but for their writes. -/
theorem quiet_actions : ∀ {ss : List Stmt} {body : List (Action Cells s.slots)},
    CallFree (Stmt.usesOfAll ss) → s.actions ss = .ok body → Action.QuietAll body
  | [], body, _, h => by
    cases h
    exact trivial
  | stmt :: ss, body, hfree, h => by
    rw [Scope.actions, bind_eq_ok] at h
    obtain ⟨a, ha, h⟩ := h
    obtain ⟨as, has, h⟩ := bind_eq_ok.mp h
    cases h
    exact ⟨quiet_action (hfree.mono (by simp [Stmt.usesOfAll])) ha,
      quiet_actions (hfree.mono (by simp [Stmt.usesOfAll])) has⟩

end

end Statements

/-! ## Calls -/

/-- The frame in which a call begins. -/
def Routine.start (r : Routine σ) (state : σ) (operands : List Value) : Frame σ r.slots :=
  ⟨state, operands, Vector.replicate r.slots .undefined⟩

/-- **Expressions that call nothing leave every frame as it was**, whether they have a value or
fail. **So a call that fails, of a program that calls nothing, leaves what the assignments before
the failure wrote**: the statement or condition that fails changes nothing. -/
theorem Program.call_atomic :
    (∀ (s : Scope Cells) (e : Expr) (c : Code Cells s.slots), CallFree e.uses →
      s.code e = .ok c → c.eval.Quiet) ∧
    ∀ (p : Program Cells) (r : Routine Cells) (ss : List Stmt), p.compile = .ok r →
      parse p.source = .ok ss → CallFree (Stmt.usesOfAll ss) →
      ∀ (state : Cells) (operands : List Value) (x : RunError),
        (r.call state operands).result = .error x →
        ∃ ws left f, Runs r.body (r.start state operands) ws left f ∧ Fails left f x f ∧
          Write.replay ws (r.start state operands) = .ok () f ∧
          r.call state operands = ⟨.error x, f.state, f.operands⟩ := by
  refine ⟨fun s e c hfree hc => quiet_code hfree hc,
    fun p r ss hr hss hfree state operands x hx => ?_⟩
  obtain ⟨ss', body, hss', hbody, rfl⟩ := Program.compile_eq_ok hr
  obtain rfl : ss' = ss := Except.ok.inj (hss'.symm.trans hss)
  have hquiet := quiet_actions hfree hbody
  rw [Routine.call_eq_completion] at hx ⊢
  cases hrun : Action.runAll body
      ⟨state, operands, Vector.replicate p.locals.length .undefined⟩ with
  | ok _ g =>
    rw [hrun] at hx
    cases hx
  | error y g =>
    rw [hrun] at hx
    cases hx
    obtain ⟨ws, left, f, hruns, hfails⟩ := runAll_eq_error_iff.mp hrun
    obtain ⟨hreplay, hleft⟩ := hruns.replay hquiet
    obtain rfl := hfails.frame_eq hleft
    exact ⟨ws, left, g, hruns, hfails, hreplay, rfl⟩

/-- A program that writes the machine state and an operand, and fails in a branch. -/
def divideProgram : Program Cells where
  name := "divide"
  locals := ["x"]
  library := .empty
  instructions := ["ctx.b = 1; x = ctx.a", "if (x) \x7b ops[0] = x; ctx.b = 1 / (x - 2) \x7d",
    "ctx.a = 0"]

/-- Its statements. -/
def divideStatements : List Stmt :=
  let a := Expr.member (.ident "ctx") "a"
  let b := Expr.member (.ident "ctx") "b"
  [.assign b (.int 1), .assign (.ident "x") a,
    .ite (.ident "x") [.assign (.index (.ident "ops") (.int 0)) (.ident "x"),
      .assign b (.binary .div (.int 1) (.binary .sub (.ident "x") (.int 2)))] [],
    .assign a (.int 0)]

/-- Its routine. -/
def divideRoutine : Routine Cells where
  name := "divide"
  slots := 1
  body :=
    let a := Place.context [.literal (.text "a")]
    let b := Place.context [.literal (.text "b")]
    let x := Place.slot ⟨0, Nat.one_pos⟩
    [.assign b (.literal (.int 1)), .assign x (.read a),
      .branch (.read x) [.assign (.operand (.literal (.int 0))) (.read x),
        .assign b (.binary .div (.literal (.int 1))
          (.binary .sub (.read x) (.literal (.int 2))))] [],
      .assign a (.literal (.int 0))]

set_option maxRecDepth 4000 in
/-- The quotient is undefined after three writes. -/
theorem call_divideProgram :
    let c : Cells := (∅ : Cells).setScalar "a" (.int 2)
    (Code.binary .div (.read (.context [.literal (.text "a")])) (.read (.slot 0)) :
        Code Cells 1).eval.Quiet ∧
      divideProgram.compile = .ok divideRoutine ∧
      (divideRoutine.call c [.int 7]).result = .error .divisionByZero ∧
      ∃ ws left f, Runs divideRoutine.body (divideRoutine.start c [.int 7]) ws left f ∧
        Fails left f .divisionByZero f ∧
        Write.replay ws (divideRoutine.start c [.int 7]) = .ok () f ∧
        divideRoutine.call c [.int 7] = ⟨.error .divisionByZero, f.state, f.operands⟩ := by
  intro c
  have hcode : Scope.code ⟨["x"], (.empty : Library Cells)⟩
      (.binary .div (.member (.ident "ctx") "a") (.ident "x")) =
        .ok (.binary .div (.read (.context [.literal (.text "a")])) (.read (.slot 0))) := by cbv
  have hcompile : divideProgram.compile = .ok divideRoutine := by cbv
  have hparse : parse divideProgram.source = .ok divideStatements := by cbv
  have huses : Stmt.usesOfAll divideStatements =
      [.name "b", .name "a", .name "b", .name "a"] := rfl
  have hresult : (divideRoutine.call c [.int 7]).result = .error .divisionByZero := rfl
  exact ⟨Program.call_atomic.1 _ _ _ (by simp [CallFree, Expr.uses]) hcode, hcompile, hresult,
    Program.call_atomic.2 _ _ _ hcompile hparse (by simp [CallFree, huses]) c [.int 7] _ hresult⟩

end Isa16
