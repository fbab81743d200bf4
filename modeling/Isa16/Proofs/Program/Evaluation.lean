import Isa16.Program.Code
import Mathlib

/-!
# How code is evaluated

* `Activation.Ends`: whatever the locals, a step ends with this result and leaves this state. It
  leaves the operands and the locals as they were.
* `Ends.bind`, `Ends.bind_error`: one step after another.
* One lemma for each form of code and of statements, from those for its parts.
* `Cells.load_element`, `Cells.store_element` and their like: when a path of the plain machine state
  is read or written.
-/

namespace Isa16

namespace Activation

variable {σ α β : Type} {n : Nat}

/-- Whatever the locals, the step ends with this result and leaves this state. -/
def Ends (x : Activation σ n α) (state : σ) (operands : List Value) (result : Except RunError α)
    (state' : σ) : Prop :=
  ∀ locals, x ⟨state, operands, locals⟩ =
    match result with
    | .ok a => .ok a ⟨state', operands, locals⟩
    | .error e => .error e ⟨state', operands, locals⟩

variable {x : Activation σ n α} {f : α → Activation σ n β} {s s₁ s₂ : σ} {ops : List Value}
  {a : α} {e : RunError} {r : Except RunError β}

theorem ends_pure : Ends (pure a : Activation σ n α) s ops (.ok a) s :=
  fun _ => rfl

theorem bind_of_ok {frame frame' : Frame σ n} (hx : x frame = .ok a frame') :
    (x >>= f) frame = f a frame' := by
  show EStateM.bind x f _ = _
  rw [EStateM.bind, hx]

theorem bind_of_error {frame frame' : Frame σ n} (hx : x frame = .error e frame') :
    (x >>= f) frame = .error e frame' := by
  show EStateM.bind x f _ = _
  rw [EStateM.bind, hx]

theorem Ends.bind (hx : x.Ends s ops (.ok a) s₁) (hf : (f a).Ends s₁ ops r s₂) :
    (x >>= f).Ends s ops r s₂ := by
  intro locals
  rw [bind_of_ok (hx locals)]
  exact hf locals

/-- A step that fails is the last one. -/
theorem Ends.bind_error (hx : x.Ends s ops (.error e) s₁) :
    (x >>= f).Ends s ops (.error e) s₁ :=
  fun locals => bind_of_error (hx locals)

theorem ends_ofExcept (r : Except RunError α) : (ofExcept r : Activation σ n α).Ends s ops r s := by
  intro locals
  cases r <;> rfl

end Activation

open Activation

section Forms

variable {σ : Type} {n : Nat} [MachineState σ] {s s₁ s₂ s₃ : σ} {ops : List Value} {v a b : Value}

/-! ## Expressions -/

theorem ends_literal (v : Value) : (Code.literal v : Code σ n).eval.Ends s ops (.ok v) s :=
  ends_pure

theorem ends_evalAll_nil : (Code.evalAll ([] : List (Code σ n))).Ends s ops (.ok []) s :=
  ends_pure

theorem ends_evalAll_cons {e : Code σ n} {es : List (Code σ n)} {vs : List Value}
    (he : e.eval.Ends s ops (.ok v) s₁) (hes : (Code.evalAll es).Ends s₁ ops (.ok vs) s₂) :
    (Code.evalAll (e :: es)).Ends s ops (.ok (v :: vs)) s₂ :=
  he.bind (hes.bind ends_pure)

theorem ends_evalKeys_nil : (Code.evalKeys ([] : List (Code σ n))).Ends s ops (.ok []) s :=
  ends_pure

theorem ends_evalKeys_cons {e : Code σ n} {es : List (Code σ n)} {key : Key} {keys : List Key}
    (he : e.eval.Ends s ops (.ok v) s₁) (hkey : Key.ofValue v = .ok key)
    (hes : (Code.evalKeys es).Ends s₁ ops (.ok keys) s₂) :
    (Code.evalKeys (e :: es)).Ends s ops (.ok (key :: keys)) s₂ := by
  refine he.bind ?_
  rw [hkey]
  exact (ends_ofExcept _).bind (hes.bind ends_pure)

theorem ends_context {keys : List (Code σ n)} {path : List Key}
    (h : (Code.evalKeys keys).Ends s ops (.ok path) s₁) :
    (Place.context keys).locate.Ends s ops (.ok (.context path)) s₁ :=
  h.bind ends_pure

theorem ends_operand {e : Code σ n} {i : Int64} {k : Nat} (he : e.eval.Ends s ops (.ok v) s₁)
    (hi : v.number = .ok i) (hk : operandPosition i ops.length = .ok k) :
    (Place.operand e).locate.Ends s ops (.ok (.operand k)) s₁ := by
  refine he.bind ?_
  rw [hi]
  refine (ends_ofExcept _).bind fun locals => ?_
  show EStateM.bind get _ _ = _
  unfold EStateM.bind
  dsimp only [getThe, get, MonadStateOf.get, EStateM.get]
  rw [hk]
  rfl

theorem ends_read_context {p : Place σ n} {path : List Key} {r : Except RunError Value}
    (hp : p.locate.Ends s ops (.ok (.context path)) s₁)
    (hload : MachineState.load path s₁ = (Effect.ofExcept r : Effect σ Value) s₁) :
    (Code.read p).eval.Ends s ops r s₁ := by
  refine hp.bind fun locals => ?_
  show onState (MachineState.load path) _ = _
  rw [onState, hload]
  cases r <;> rfl

theorem ends_read_operand {p : Place σ n} {k : Nat}
    (hp : p.locate.Ends s ops (.ok (.operand k)) s₁) (hk : ops[k]? = some v) :
    (Code.read p).eval.Ends s ops (.ok v) s₁ := by
  refine hp.bind fun locals => ?_
  show EStateM.Result.ok (ops.getD k .undefined) _ = _
  rw [List.getD_eq_getElem?_getD, hk]
  rfl

theorem ends_call {f : HostFunction σ} {args : List (Code σ n)} {vs : List Value}
    (hargs : (Code.evalAll args).Ends s ops (.ok vs) s₁) (hf : f vs s₁ = .ok v s₂) :
    (Code.call f args).eval.Ends s ops (.ok v) s₂ := by
  refine hargs.bind fun locals => ?_
  show onState (f vs) _ = _
  rw [onState, hf]

theorem ends_binary {op : BinaryOp} {lhs rhs : Code σ n} {r : Except RunError Value}
    (hl : lhs.eval.Ends s ops (.ok a) s₁) (hsettle : op.settle? a = .ok none)
    (hr : rhs.eval.Ends s₁ ops (.ok b) s₂) (happly : op.apply a b = r) :
    (Code.binary op lhs rhs).eval.Ends s ops r s₂ := by
  refine hl.bind ?_
  rw [hsettle]
  refine (ends_ofExcept _).bind (hr.bind ?_)
  rw [happly]
  exact ends_ofExcept r

/-! ## Statements -/

theorem ends_assign {target : Place σ n} {value : Code σ n} {path : List Key}
    (ht : target.locate.Ends s ops (.ok (.context path)) s₁)
    (hv : value.eval.Ends s₁ ops (.ok v) s₂) (hs : MachineState.store path v s₂ = .ok () s₃) :
    (Action.assign target value).run.Ends s ops (.ok ()) s₃ := by
  refine ht.bind (hv.bind fun locals => ?_)
  show onState (MachineState.store path v) _ = _
  rw [onState, hs]

theorem ends_assign_error {target : Place σ n} {value : Code σ n} {path : List Key} {e : RunError}
    (ht : target.locate.Ends s ops (.ok (.context path)) s₁)
    (hv : value.eval.Ends s₁ ops (.ok v) s₂) (hs : MachineState.store path v s₂ = .error e s₃) :
    (Action.assign target value).run.Ends s ops (.error e) s₃ := by
  refine ht.bind (hv.bind fun locals => ?_)
  show onState (MachineState.store path v) _ = _
  rw [onState, hs]

/-- A value that cannot be worked out. -/
theorem ends_assign_value_error {target : Place σ n} {value : Code σ n} {loc : Location n}
    {e : RunError} (ht : target.locate.Ends s ops (.ok loc) s₁)
    (hv : value.eval.Ends s₁ ops (.error e) s₂) :
    (Action.assign target value).run.Ends s ops (.error e) s₂ :=
  ht.bind hv.bind_error

/-- A local takes the value. -/
theorem run_assign_slot {i : Fin n} {value : Code σ n} (hv : value.eval.Ends s ops (.ok v) s₁)
    (locals : Vector Value n) : (Action.assign (.slot i) value).run ⟨s, ops, locals⟩ =
      .ok () ⟨s₁, ops, locals.set i v i.isLt⟩ := by
  have ht : (Place.slot i : Place σ n).locate.Ends s ops (.ok (.slot i)) s := ends_pure
  exact (bind_of_ok (ht locals)).trans (bind_of_ok (hv locals))

/-- The value of a local is stored. -/
theorem run_assign_read_slot {target : Place σ n} {path : List Key} {i : Fin n}
    {locals : Vector Value n} (ht : target.locate.Ends s ops (.ok (.context path)) s₁)
    (hs : MachineState.store path (locals.get i) s₁ = .ok () s₂) :
    (Action.assign target (.read (.slot i))).run ⟨s, ops, locals⟩ = .ok () ⟨s₂, ops, locals⟩ := by
  refine (bind_of_ok (ht locals)).trans ?_
  show onState (MachineState.store path (locals.get i)) _ = _
  rw [onState, hs]

theorem ends_branch {condition : Code σ n} {whenTrue whenFalse : List (Action σ n)}
    {r : Except RunError Unit} (hc : condition.eval.Ends s ops (.ok v) s₁)
    (h : (Action.runAll (if v.toBool then whenTrue else whenFalse)).Ends s₁ ops r s₂) :
    (Action.branch condition whenTrue whenFalse).run.Ends s ops r s₂ := by
  refine hc.bind ?_
  split
  next hv => rwa [if_pos hv] at h
  next hv => rwa [if_neg hv] at h

theorem ends_runAll_nil : (Action.runAll ([] : List (Action σ n))).Ends s ops (.ok ()) s :=
  ends_pure

theorem ends_runAll_cons {act : Action σ n} {rest : List (Action σ n)} {r : Except RunError Unit}
    (h : act.run.Ends s ops (.ok ()) s₁) (hrest : (Action.runAll rest).Ends s₁ ops r s₂) :
    (Action.runAll (act :: rest)).Ends s ops r s₂ :=
  h.bind hrest

theorem ends_runAll_error {act : Action σ n} {rest : List (Action σ n)} {e : RunError}
    (h : act.run.Ends s ops (.error e) s₁) :
    (Action.runAll (act :: rest)).Ends s ops (.error e) s₁ :=
  h.bind_error

theorem ends_runAll_singleton {act : Action σ n} (h : act.run.Ends s ops (.ok ()) s₁) :
    (Action.runAll [act]).Ends s ops (.ok ()) s₁ :=
  ends_runAll_cons h ends_runAll_nil

/-- A call of a routine whose body ends whatever its locals. -/
theorem Routine.call_of_ends {name : String} {body : List (Action σ n)} {r : Except RunError Unit}
    (h : (Action.runAll body).Ends s ops r s₁) :
    (Routine.mk name n body).call s ops = ⟨r, s₁, ops⟩ := by
  unfold Routine.call
  rw [h]
  cases r <;> rfl

/-- **A value, then a second statement, then a store of the value**: the value is the one before
the second statement. -/
theorem Routine.call_of_kept {name : String} {i : Fin n} {value : Code σ n} {second : Action σ n}
    {target : Place σ n} {path : List Key} (hv : value.eval.Ends s ops (.ok v) s)
    (hsecond : second.run.Ends s ops (.ok ()) s₁)
    (ht : target.locate.Ends s₁ ops (.ok (.context path)) s₁)
    (hs : MachineState.store path v s₁ = .ok () s₂) :
    (Routine.mk name n [.assign (.slot i) value, second,
      .assign target (.read (.slot i))]).call s ops = ⟨.ok (), s₂, ops⟩ := by
  let locals : Vector Value n := Vector.replicate n .undefined
  have hkept := run_assign_slot (i := i) hv locals
  have hget : (locals.set i v i.isLt).get i = v := by
    simp [Vector.get_eq_getElem]
  have hstore : (Action.assign target (.read (.slot i))).run
      ⟨s₁, ops, locals.set i v i.isLt⟩ = .ok () ⟨s₂, ops, locals.set i v i.isLt⟩ :=
    run_assign_read_slot ht (by rw [hget, hs])
  have hrun : Action.runAll [.assign (.slot i) value, second, .assign target (.read (.slot i))]
      ⟨s, ops, locals⟩ = .ok () ⟨s₂, ops, locals.set i v i.isLt⟩ :=
    (bind_of_ok hkept).trans ((bind_of_ok (hsecond _)).trans (bind_of_ok hstore))
  unfold Routine.call
  rw [hrun]

end Forms

/-! ## The plain machine state -/

namespace Cells

variable {c : Cells} {name : String} {v : Value} {vs : Array Value}

/-- The last of two cells behind a name counts. -/
theorem put_put (c : Cells) (name : String) (cell cell' : Cell) :
    (c.put name cell).put name cell' = c.put name cell' := by
  refine ext_get? fun n => ?_
  rw [get?_put, get?_put, get?_put]
  split <;> rfl

theorem load_scalar (h : c.get? name = some (.scalar v)) : c.load [.name name] = .ok v := by
  rw [load, h]

theorem element?_of_array (h : c.get? name = some (.array vs)) (k : Nat) :
    c.element? name k = vs[k]? := by
  rw [element?, array?, h]
  rfl

theorem load_element {i : Int64} {k : Nat} (h : c.get? name = some (.array vs))
    (hi : i.toInt = k) (hk : vs[k]? = some v) : c.load [.name name, .index i] = .ok v := by
  rw [load, Int.mem_toNat?.mpr hi, Option.bind_some, element?_of_array h, hk]

/-- An index that is not one of the array's. -/
theorem load_element_error {i : Int64} (h : c.get? name = some (.array vs))
    (hi : ∀ k : Nat, i.toInt = k → vs.size ≤ k) :
    c.load [.name name, .index i] = .error (.unknownPath [.name name, .index i]) := by
  have hnone : i.toInt.toNat?.bind (c.element? name) = none := by
    rw [Option.bind_eq_none_iff]
    intro k hk
    rw [element?_of_array h, Array.getElem?_eq_none]
    exact hi k (Int.mem_toNat?.mp hk)
  rw [load, hnone]

theorem store_scalar {u : Value} (h : c.get? name = some (.scalar u)) :
    c.store [.name name] v = .ok (c.setScalar name v) := by
  rw [store, h]

theorem store_element {i : Int64} {k : Nat} (h : c.get? name = some (.array vs))
    (hi : i.toInt = k) (hk : k < vs.size) : c.store [.name name, .index i] v =
      .ok (c.put name (.array (vs.setIfInBounds k v))) := by
  rw [store, Int.mem_toNat?.mpr hi, Option.bind_some, setElement?, array?, h]
  dsimp only
  rw [if_pos hk]

theorem store_element_error {i : Int64} (h : c.get? name = some (.array vs))
    (hi : ∀ k : Nat, i.toInt = k → vs.size ≤ k) :
    c.store [.name name, .index i] v = .error (.unknownPath [.name name, .index i]) := by
  have hnone : (i.toInt.toNat?.bind fun index => c.setElement? name index v) = none := by
    rw [Option.bind_eq_none_iff]
    intro k hk
    rw [setElement?, array?, h]
    exact if_neg (not_lt.mpr (hi k (Int.mem_toNat?.mp hk)))
  rw [store, hnone]

variable {d : Cells} {path : List Key} {e : RunError}

theorem load_of_ok (h : c.load path = .ok v) : MachineState.load path c = .ok v c := by
  simp only [MachineState.load]
  rw [h]
  rfl

theorem load_of_error (h : c.load path = .error e) : MachineState.load path c = .error e c := by
  simp only [MachineState.load]
  rw [h]
  rfl

theorem store_of_ok (h : c.store path v = .ok d) : MachineState.store path v c = .ok () d := by
  simp only [MachineState.store]
  rw [h]

theorem store_of_error (h : c.store path v = .error e) :
    MachineState.store path v c = .error e c := by
  simp only [MachineState.store]
  rw [h]

end Cells

end Isa16
