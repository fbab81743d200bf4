import Isa16.Proofs.Program.Simulation

/-!
# What programs use

* `Expr.uses`, `Stmt.uses`: the paths into the machine state that an expression or a statement
  reads or writes, and what it calls. `Stmt.targets`: those that it writes.
* `Alike`: two frames with related machine states and otherwise the same.
* `Steady`: from frames that are alike, an evaluation ends with the same result in frames that are
  alike. `Steady.bind` and one lemma for each primitive step.
* `Use.Steady`: what is used keeps the relation of the machine states.
* **`steady_execAll`**: an evaluation is steady if all that it uses is.
* `Program.exists_call`: a call of a compiled program completes an evaluation of its text.
-/

namespace Isa16

open ByName

/-! ## Uses -/

/-- What an expression uses besides locals and operands. -/
inductive Use
  /-- A path into the machine state whose first key is a dotted name. -/
  | name (name : String)
  /-- A path into the machine state whose first key is computed. -/
  | computed
  | call (callee : Expr)

/-- The path is one of the use. -/
def Use.Opens : Use → List Key → Prop
  | name n, path => path.head? = some (.name n)
  | computed, path => path ≠ []
  | call _, _ => False

def isContext : Expr → Bool
  | .ident name => name = contextRoot
  | _ => false

/-- How a path goes into the machine state. -/
def Expr.opening? : Expr → Option Use
  | member object name => if isContext object then some (.name name) else object.opening?
  | index object _ => if isContext object then some .computed else object.opening?
  | _ => none

mutual

/-- What an expression uses. -/
def Expr.uses : Expr → List Use
  | int _ | bool _ | text _ | ident _ => []
  | member object name => (if isContext object then [.name name] else []) ++ object.uses
  | index object key =>
    (if isContext object then [.computed] else []) ++ (object.uses ++ key.uses)
  | call callee args | construct callee args => .call callee :: Expr.usesOfAll args
  | unary _ operand => operand.uses
  | binary _ lhs rhs => lhs.uses ++ rhs.uses
  | conditional condition whenTrue whenFalse =>
    condition.uses ++ (whenTrue.uses ++ whenFalse.uses)

def Expr.usesOfAll : List Expr → List Use
  | [] => []
  | e :: es => e.uses ++ Expr.usesOfAll es

end

mutual

/-- What a statement uses, its target included. -/
def Stmt.uses : Stmt → List Use
  | expr e => e.uses
  | assign target value => target.uses ++ value.uses
  | ite condition whenTrue whenFalse =>
    condition.uses ++ (Stmt.usesOfAll whenTrue ++ Stmt.usesOfAll whenFalse)

def Stmt.usesOfAll : List Stmt → List Use
  | [] => []
  | s :: ss => s.uses ++ Stmt.usesOfAll ss

end

mutual

/-- The paths that a statement writes. -/
def Stmt.targets : Stmt → List Use
  | expr _ => []
  | assign target _ => target.opening?.toList
  | ite _ whenTrue whenFalse => Stmt.targetsOfAll whenTrue ++ Stmt.targetsOfAll whenFalse

def Stmt.targetsOfAll : List Stmt → List Use
  | [] => []
  | s :: ss => s.targets ++ Stmt.targetsOfAll ss

end

/-! ## Evaluations from two frames -/

variable {σ α β : Type} (S : σ → σ → Prop) (count : Nat)

/-- The machine states are related, the operands, which are `count` many, and the locals are the
same. -/
structure Alike (f g : NamedFrame σ) : Prop where
  state : S f.state g.state
  operands : f.operands = g.operands
  count : f.operands.length = count
  locals : f.locals = g.locals

/-- The evaluations ended with the same result, for which `Q` holds, or were stopped alike. -/
inductive EndsAlike (Q : α → Prop) : EStateM.Result Stop (NamedFrame σ) α →
    EStateM.Result Stop (NamedFrame σ) α → Prop
  | ok {a : α} {f g : NamedFrame σ} (hq : Q a) (h : Alike S count f g) :
    EndsAlike Q (.ok a f) (.ok a g)
  | error {e : Stop} {f g : NamedFrame σ} (h : Alike S count f g) :
    EndsAlike Q (.error e f) (.error e g)

/-- From frames that are alike, the evaluation ends alike. -/
def Steady (Q : α → Prop) (x : Evaluation σ α) : Prop :=
  ∀ f g, Alike S count f g → EndsAlike S count Q (x f) (x g)

/-- Any result. -/
abbrev Any : α → Prop := fun _ => True

variable {S count} {Q : α → Prop} {R : β → Prop}

namespace Steady

theorem pure {a : α} (h : Q a) : Steady S count Q (Pure.pure a) :=
  fun _ _ hfg => .ok h hfg

theorem throw {e : Stop} : Steady S count Q (MonadExcept.throw e) :=
  fun _ _ hfg => .error hfg

theorem bind {x : Evaluation σ α} {k : α → Evaluation σ β} (hx : Steady S count Q x)
    (hk : ∀ a, Q a → Steady S count R (k a)) : Steady S count R (x >>= k) := by
  intro f g hfg
  have h := hx f g hfg
  show EndsAlike S count R (EStateM.bind x k f) (EStateM.bind x k g)
  unfold EStateM.bind
  generalize x f = xf at h ⊢
  generalize x g = xg at h ⊢
  cases h with
  | ok hq h => exact hk _ hq _ _ h
  | error h => exact .error h

theorem mono {Q' : α → Prop} {x : Evaluation σ α} (h : Steady S count Q x)
    (hq : ∀ a, Q a → Q' a) : Steady S count Q' x := by
  intro f g hfg
  have hend := h f g hfg
  generalize x f = xf at hend ⊢
  generalize x g = xg at hend ⊢
  cases hend with
  | ok ha h => exact .ok (hq _ ha) h
  | error h => exact .error h

/-- Nothing has to be known of the result that is gone on with. -/
theorem andThen {x : Evaluation σ α} {k : α → Evaluation σ β} (hx : Steady S count Any x)
    (hk : ∀ a, Steady S count R (k a)) : Steady S count R (x >>= k) :=
  hx.bind fun a _ => hk a

theorem check (x : Except RunError α) : Steady S count Any (ByName.check x) := by
  cases x with
  | ok a => exact .pure trivial
  | error e => exact .throw

theorem get_bind {k : NamedFrame σ → Evaluation σ β}
    (h : ∀ f g, Alike S count f g → EndsAlike S count R (k f f) (k g g)) :
    Steady S count R (get >>= k) :=
  h

theorem localSpot (name : String) :
    Steady S count (fun spot => spot = .named name) (ByName.localSpot name) := by
  refine get_bind fun f g hfg => ?_
  rw [hfg.locals]
  split
  · exact .ok rfl hfg
  · exact .error hfg

theorem operandSpot {index : Evaluation σ Value} (h : Steady S count Any index) :
    Steady S count (fun spot => ∃ i, spot = .operand i) (ByName.operandSpot index) := by
  refine h.andThen fun v => (check v.number).andThen fun i => get_bind fun f g hfg => ?_
  rw [hfg.operands]
  exact (check _).andThen (fun p => .pure ⟨p, rfl⟩) f g hfg

theorem extend {path : Evaluation σ (List Key)} {key : Evaluation σ Value} {P R : List Key → Prop}
    (hpath : Steady S count P path) (hkey : Steady S count Any key)
    (h : ∀ keys last, P keys → R (keys ++ [last])) :
    Steady S count R (ByName.extend path key) :=
  hpath.bind fun keys hkeys => hkey.andThen fun v =>
    (check (Key.ofValue v)).andThen fun last => .pure (h keys last hkeys)

theorem add (a b : Value) : Steady S count Any (ByName.add a b) := by
  unfold ByName.add
  split
  · exact .pure trivial
  · exact .pure trivial
  · exact (check _).andThen fun m => (check _).andThen fun n => check _

theorem combine {op : BinaryOp} {lhs rhs : Evaluation σ Value} (hl : Steady S count Any lhs)
    (hr : Steady S count Any rhs) : Steady S count Any (ByName.combine op lhs rhs) := by
  refine hl.andThen fun a => ?_
  cases op with
  | or =>
    cases a.toBool with
    | true => exact .pure trivial
    | false => exact hr.andThen fun b => .pure trivial
  | and =>
    cases a.toBool with
    | true => exact hr.andThen fun b => .pure trivial
    | false => exact .pure trivial
  | eq | ne => exact hr.andThen fun b => .pure trivial
  | add => exact hr.andThen fun b => add a b
  | _ => exact (check _).andThen fun m => hr.andThen fun b => (check _).andThen fun n => check _

end Steady

/-! ## Spots -/

/-- The keys may be those of the path. -/
def Expr.LeadsTo (e : Expr) (keys : List Key) : Prop :=
  if isContext e then keys = [] else ∃ u ∈ e.opening?, u.Opens keys

theorem Use.Opens.concat {u : Use} {keys : List Key} (h : u.Opens keys) (last : Key) :
    u.Opens (keys ++ [last]) := by
  cases u with
  | name n =>
    obtain ⟨keys, rfl⟩ := List.head?_eq_some_iff.mp h
    rfl
  | computed => exact List.append_ne_nil_of_left_ne_nil h _
  | call => exact h

theorem opens_member {object : Expr} {keys : List Key} (h : object.LeadsTo keys) (name : String) :
    ∃ u ∈ (Expr.member object name).opening?, u.Opens (keys ++ [.name name]) := by
  unfold Expr.LeadsTo at h
  rw [Expr.opening?]
  split at h
  next hroot =>
    rw [if_pos hroot, h]
    exact ⟨_, rfl, rfl⟩
  next hroot =>
    rw [if_neg hroot]
    obtain ⟨u, hu, hopens⟩ := h
    exact ⟨u, hu, hopens.concat _⟩

theorem opens_index {object : Expr} {keys : List Key} (h : object.LeadsTo keys) (key : Expr)
    (last : Key) : ∃ u ∈ (Expr.index object key).opening?, u.Opens (keys ++ [last]) := by
  unfold Expr.LeadsTo at h
  rw [Expr.opening?]
  split at h
  next hroot =>
    rw [if_pos hroot, h]
    exact ⟨_, rfl, List.cons_ne_nil _ _⟩
  next hroot =>
    rw [if_neg hroot]
    obtain ⟨u, hu, hopens⟩ := h
    exact ⟨u, hu, hopens.concat _⟩

/-- What a path begins with is among what is used. -/
theorem mem_uses_of_opening? : ∀ {e : Expr} {u : Use}, u ∈ e.opening? → u ∈ e.uses
  | .member object name, u, h => by
    rw [Expr.opening?] at h
    rw [Expr.uses]
    split at h
    next hroot =>
      cases h
      simp [hroot]
    next => exact List.mem_append_right _ (mem_uses_of_opening? h)
  | .index object key, u, h => by
    rw [Expr.opening?] at h
    rw [Expr.uses]
    split at h
    next hroot =>
      cases h
      simp [hroot]
    next => exact List.mem_append_right _ (List.mem_append_left _ (mem_uses_of_opening? h))
  | .int _, _, h | .bool _, _, h | .text _, _, h | .ident _, _, h | .call .., _, h
  | .construct .., _, h | .unary .., _, h | .binary .., _, h | .conditional .., _, h => by
    cases h

/-- The spot, if it is in the machine state, is one of the path. -/
def ByName.Spot.IsOf (e : Expr) (spot : Spot) : Prop :=
  ∀ keys, spot = .context keys → ∃ u ∈ e.opening?, u.Opens keys

theorem ByName.Spot.isOf_context {e : Expr} {keys : List Key} (h : ∃ u ∈ e.opening?, u.Opens keys) :
    Spot.IsOf e (.context keys) := by
  rintro _ ⟨⟩
  exact h

theorem Steady.spot_ident (name : String) :
    Steady S count (Spot.IsOf (.ident name)) (ByName.localSpot name) :=
  (Steady.localSpot name).mono fun spot hspot keys hkeys => by
    rw [hspot] at hkeys
    cases hkeys

theorem Steady.spot_member {object : Expr} {path : Evaluation σ (List Key)}
    (hpath : Steady S count object.LeadsTo path) (name : String) :
    Steady S count (Spot.IsOf (.member object name)) (do
      let keys ← path
      return .context (keys ++ [.name name])) :=
  hpath.bind fun _ hkeys => .pure (Spot.isOf_context (opens_member hkeys name))

theorem Steady.spot_index {object key : Expr} {path : Evaluation σ (List Key)}
    {v : Evaluation σ Value} (hpath : Steady S count object.LeadsTo path)
    (hkey : Steady S count Any v) :
    Steady S count (Spot.IsOf (.index object key)) (indexSpot object path v) := by
  unfold indexSpot
  split
  · refine (Steady.operandSpot hkey).mono fun spot hspot keys hkeys => ?_
    obtain ⟨i, rfl⟩ := hspot
    cases hkeys
  · exact (hpath.extend hkey fun keys last h => opens_index h key last).bind fun keys hkeys =>
      .pure (Spot.isOf_context hkeys)

/-! ## Effects on the machine state -/

variable (S) in
/-- The effects ended with the same result, or failed alike, in related states. -/
inductive EffectsAlike : EStateM.Result RunError σ α → EStateM.Result RunError σ α → Prop
  | ok {a : α} {c d : σ} (h : S c d) : EffectsAlike (.ok a c) (.ok a d)
  | error {e : RunError} {c d : σ} (h : S c d) : EffectsAlike (.error e c) (.error e d)

variable (S) in
/-- From related states, the effect ends alike. -/
def Respects (effect : Effect σ α) : Prop :=
  ∀ c d, S c d → EffectsAlike S (effect c) (effect d)

theorem Steady.onState {effect : Effect σ α} (h : Respects S effect) :
    Steady S count Any (ByName.onState effect) := by
  intro f g hfg
  have heffect := h _ _ hfg.state
  unfold ByName.onState
  generalize effect f.state = ef at heffect ⊢
  generalize effect g.state = eg at heffect ⊢
  cases heffect with
  | ok h => exact .ok trivial ⟨h, hfg.operands, hfg.count, hfg.locals⟩
  | error h => exact .error ⟨h, hfg.operands, hfg.count, hfg.locals⟩

variable [MachineState σ]

variable (S) in
/-- What is read and called respects the relation. -/
structure RespectsUses (lib : Library σ) (uses : List Use) : Prop where
  load : ∀ u ∈ uses, ∀ path, u.Opens path → Respects S (MachineState.load path)
  call : ∀ callee, .call callee ∈ uses → ∀ entry, provided? lib callee = some entry →
    ∀ args, Respects S (entry.body args)

variable (S) in
/-- What is written respects the relation. -/
def RespectsTargets (targets : List Use) : Prop :=
  ∀ u ∈ targets, ∀ path v, u.Opens path → Respects S (MachineState.store path v)

variable {lib : Library σ} {uses : List Use}

theorem RespectsUses.mono (h : RespectsUses S lib uses) {uses' : List Use} (hsub : uses' ⊆ uses) :
    RespectsUses S lib uses' :=
  ⟨fun u hu => h.load u (hsub hu), fun callee hc => h.call callee (hsub hc)⟩

theorem Steady.load {spot : Spot}
    (h : ∀ path, spot = .context path → Respects S (MachineState.load path)) :
    Steady S count Any (ByName.load spot) := by
  cases spot with
  | named name =>
    refine get_bind fun f g hfg => ?_
    rw [hfg.locals]
    cases g.locals[name]? with
    | some v => exact .ok trivial hfg
    | none => exact .error hfg
  | operand i =>
    refine get_bind fun f g hfg => ?_
    rw [hfg.operands]
    cases g.operands[i]? with
    | some v => exact .ok trivial hfg
    | none => exact .error hfg
  | context path => exact .onState (h path rfl)

theorem Steady.store {spot : Spot} {v : Value}
    (h : ∀ path, spot = .context path → Respects S (MachineState.store path v)) :
    Steady S count Any (ByName.store v spot) := by
  cases spot with
  | named name =>
    refine get_bind fun f g hfg => ?_
    rw [hfg.locals]
    split
    · exact .ok trivial ⟨hfg.state, hfg.operands, hfg.count, rfl⟩
    · exact .error hfg
  | operand i =>
    refine get_bind fun f g hfg => ?_
    rw [hfg.operands]
    split
    · refine .ok trivial ⟨hfg.state, rfl, ?_, hfg.locals⟩
      rw [List.length_set, ← hfg.operands, hfg.count]
    · exact .error hfg
  | context path => exact .onState (h path rfl)

/-! ## Expressions -/

theorem RespectsUses.steady_load {e : Expr} (h : RespectsUses S lib e.uses) {spot : Spot}
    (hspot : Spot.IsOf e spot) : Steady S count Any (ByName.load spot) := by
  refine .load fun keys hkeys => ?_
  obtain ⟨u, hu, hopens⟩ := hspot keys hkeys
  exact h.load u (mem_uses_of_opening? hu) keys hopens

mutual

/-- An expression gives the same value. -/
theorem steady_eval : ∀ {e : Expr}, RespectsUses S lib e.uses → Steady S count Any (eval lib e)
  | .int n, _ => .pure trivial
  | .bool b, _ => .pure trivial
  | .text t, _ => .pure trivial
  | .ident name, h => by
    rw [eval]
    exact (Steady.spot_ident name).bind fun _ hspot => h.steady_load hspot
  | .member object name, h => by
    rw [eval]
    exact (steady_path (h.mono (by simp [Expr.uses]))).bind fun keys hkeys =>
      h.steady_load (Spot.isOf_context (opens_member hkeys name))
  | .index object key, h => by
    rw [eval]
    refine (Steady.spot_index (steady_path (h.mono ?_)) (steady_eval (h.mono ?_))).bind
      fun _ hspot => h.steady_load hspot
    · simp [Expr.uses]
    · simp [Expr.uses]
  | .call callee args, h | .construct callee args, h => by
    rw [eval]
    split
    next f hf =>
      refine (steady_evalAll (h.mono ?_)).andThen fun values =>
        .onState (h.call callee ?_ _ hf values)
      · simp [Expr.uses]
      · simp [Expr.uses]
    next => exact .throw
  | .unary op operand, h => by
    rw [eval]
    exact (steady_eval (h.mono (by simp [Expr.uses]))).andThen fun v => .check _
  | .binary op lhs rhs, h => by
    rw [eval]
    exact .combine (steady_eval (h.mono (by simp [Expr.uses])))
      (steady_eval (h.mono (by simp [Expr.uses])))
  | .conditional condition whenTrue whenFalse, h => by
    rw [eval]
    refine (steady_eval (h.mono (by simp [Expr.uses]))).andThen fun v => ?_
    split
    · exact steady_eval (h.mono (by simp [Expr.uses]))
    · exact steady_eval (h.mono (by simp [Expr.uses]))

/-- A path has the same keys, and they are its. -/
theorem steady_path : ∀ {e : Expr}, RespectsUses S lib e.uses →
    Steady S count e.LeadsTo (path lib e)
  | .ident name, _ => by
    rw [path]
    split
    next hname => exact .pure (by simp [Expr.LeadsTo, isContext, hname])
    next => exact .throw
  | .member object name, h => by
    rw [path]
    exact (steady_path (h.mono (by simp [Expr.uses]))).bind fun _ hkeys =>
      .pure (by simpa [Expr.LeadsTo, isContext] using opens_member hkeys name)
  | .index object key, h => by
    rw [path]
    refine (steady_path (h.mono ?_)).extend (steady_eval (h.mono ?_)) fun keys last hkeys => ?_
    · simp [Expr.uses]
    · simp [Expr.uses]
    · simpa [Expr.LeadsTo, isContext] using opens_index hkeys key last
  | .int _, _ | .bool _, _ | .text _, _ | .call .., _ | .construct .., _ | .unary .., _
  | .binary .., _ | .conditional .., _ => .throw

theorem steady_evalAll : ∀ {es : List Expr}, RespectsUses S lib (Expr.usesOfAll es) →
    Steady S count Any (evalAll lib es)
  | [], _ => .pure trivial
  | e :: es, h => by
    rw [evalAll]
    exact (steady_eval (h.mono (by simp [Expr.usesOfAll]))).andThen fun v =>
      (steady_evalAll (h.mono (by simp [Expr.usesOfAll]))).andThen fun vs => .pure trivial

end

/-! ## Statements -/

theorem steady_locate {target : Expr} (h : RespectsUses S lib target.uses) :
    Steady S count (Spot.IsOf target) (locate lib target) := by
  cases target with
  | ident name => exact .spot_ident name
  | member object name => exact (steady_path (h.mono (by simp [Expr.uses]))).spot_member name
  | index object key =>
    exact .spot_index (steady_path (h.mono (by simp [Expr.uses])))
      (steady_eval (h.mono (by simp [Expr.uses])))
  | _ => exact .throw

theorem RespectsTargets.mono {targets targets' : List Use} (h : RespectsTargets S targets)
    (hsub : targets' ⊆ targets) : RespectsTargets S targets' :=
  fun u hu => h u (hsub hu)

mutual

theorem steady_exec : ∀ {s : Stmt}, RespectsUses S lib s.uses → RespectsTargets S s.targets →
    Steady S count Any (exec lib s)
  | .expr e, h, _ => by
    rw [exec]
    exact (steady_eval h).andThen fun _ => .pure trivial
  | .assign target value, h, hw => by
    rw [exec]
    refine (steady_locate (h.mono ?_)).bind fun spot hspot =>
      (steady_eval (h.mono ?_)).andThen fun v => .store fun keys hkeys => ?_
    · simp [Stmt.uses]
    · simp [Stmt.uses]
    · obtain ⟨u, hu, hopens⟩ := hspot keys hkeys
      exact hw u (Option.mem_toList.mpr hu) keys v hopens
  | .ite condition whenTrue whenFalse, h, hw => by
    rw [exec]
    refine (steady_eval (h.mono ?_)).andThen fun v => ?_
    · simp [Stmt.uses]
    split
    · exact steady_execAll (h.mono (by simp [Stmt.uses])) (hw.mono (by simp [Stmt.targets]))
    · exact steady_execAll (h.mono (by simp [Stmt.uses])) (hw.mono (by simp [Stmt.targets]))

/-- **Statements leave frames alike** if all that they use respects the relation. -/
theorem steady_execAll : ∀ {ss : List Stmt}, RespectsUses S lib (Stmt.usesOfAll ss) →
    RespectsTargets S (Stmt.targetsOfAll ss) → Steady S count Any (execAll lib ss)
  | [], _, _ => .pure trivial
  | s :: ss, h, hw => by
    rw [execAll]
    exact (steady_exec (h.mono (by simp [Stmt.usesOfAll]))
      (hw.mono (by simp [Stmt.targetsOfAll]))).andThen fun _ =>
        steady_execAll (h.mono (by simp [Stmt.usesOfAll])) (hw.mono (by simp [Stmt.targetsOfAll]))

end

/-! ## Calls -/

/-- A call of a compiled program completes an evaluation of its text. -/
theorem Program.exists_call {p : Program σ} {r : Routine σ} (h : p.compile = .ok r) :
    ∃ ss, parse p.source = .ok ss ∧ ∀ state operands,
      Program.completion? (p.execute ss state operands) = some (r.call state operands) := by
  obtain ⟨ss, body, hss, hbody, rfl⟩ := Program.compile_eq_ok h
  refine ⟨ss, hss, fun state operands => ?_⟩
  have hmatches : Matches _ _ Eq _ (p.execute ss state operands) :=
    simulates_actions hbody _ _ (agrees_start state operands)
  rw [Routine.call_eq_completion]
  exact hmatches.completion_eq

/-- **Two calls from related machine states** end with the same result and the same operands in
related machine states. -/
theorem Program.call_alike {p : Program σ} {r : Routine σ} {ss : List Stmt}
    (hr : p.compile = .ok r) (hss : parse p.source = .ok ss)
    (huses : RespectsUses S p.library (Stmt.usesOfAll ss))
    (htargets : RespectsTargets S (Stmt.targetsOfAll ss)) {c d : σ} (h : S c d)
    (operands : List Value) :
    (r.call c operands).result = (r.call d operands).result ∧
      (r.call c operands).operands = (r.call d operands).operands ∧
      (r.call c operands).operands.length = operands.length ∧
      S (r.call c operands).state (r.call d operands).state := by
  obtain ⟨ss', hss', hcall⟩ := Program.exists_call hr
  obtain rfl : ss' = ss := Except.ok.inj (hss'.symm.trans hss)
  have hend : EndsAlike S operands.length Any
      (execAll p.library ss' ⟨c, operands, undefinedLocals p.locals⟩)
      (execAll p.library ss' ⟨d, operands, undefinedLocals p.locals⟩) :=
    steady_execAll huses htargets _ _ ⟨h, rfl, rfl, rfl⟩
  have hc := hcall c operands
  have hd := hcall d operands
  unfold Program.execute at hc hd
  generalize execAll p.library ss' ⟨c, _, _⟩ = xc at hc hend
  generalize execAll p.library ss' ⟨d, _, _⟩ = xd at hd hend
  cases hend with
  | ok _ halike =>
    rw [← Option.some.inj hc, ← Option.some.inj hd]
    exact ⟨rfl, halike.operands, halike.count, halike.state⟩
  | @error stop f g halike =>
    cases stop with
    | fault e =>
      rw [← Option.some.inj hc, ← Option.some.inj hd]
      exact ⟨rfl, halike.operands, halike.count, halike.state⟩
    | stuck => cases hc

end Isa16
