import Isa16.Proofs.Program.StoreLaws
import Isa16.Proofs.Program.Uses

/-!
# Shapes of machine states

* `KeepsShape`: scalars stay scalars, arrays stay arrays of their length, and what is new is a
  scalar.
* `Script`: what a host function does that works on the machine state by loads and stores only.
* `keepsShape_store`, `Script.keepsShape_left`: a store and a script keep the shape.
* **`Program.call_keepsShape`**: so does every call of a compiled program whose library is made of
  scripts, however the call ends.
-/

namespace Isa16

/-! ## Shapes -/

/-- The shape of what stands behind a name is kept. -/
inductive CellKept : Option Cell → Option Cell → Prop
  | absent : CellKept none none
  | created (v : Value) : CellKept none (some (.scalar v))
  | scalar (u v : Value) : CellKept (some (.scalar u)) (some (.scalar v))
  | array {us vs : Array Value} (h : vs.size = us.size) :
    CellKept (some (.array us)) (some (.array vs))

theorem CellKept.refl (cell : Option Cell) : CellKept cell cell := by
  rcases cell with _ | v | vs
  · exact .absent
  · exact .scalar v v
  · exact .array rfl

theorem CellKept.trans {a b c : Option Cell} (h : CellKept a b) (h' : CellKept b c) :
    CellKept a c := by
  cases h with
  | absent => exact h'
  | created => cases h' with | scalar => exact .created _
  | scalar => cases h' with | scalar => exact .scalar _ _
  | array h => cases h' with | array h' => exact .array (h'.trans h)

/-- Every name that stood for something stands for the same kind of thing, and each new name for a
scalar. -/
def KeepsShape (c d : Cells) : Prop :=
  ∀ name, CellKept (c.get? name) (d.get? name)

theorem KeepsShape.refl (c : Cells) : KeepsShape c c :=
  fun _ => .refl _

theorem KeepsShape.trans {c d e : Cells} (h : KeepsShape c d) (h' : KeepsShape d e) :
    KeepsShape c e :=
  fun name => (h name).trans (h' name)

theorem keepsShape_put {c : Cells} {name : String} {cell : Cell}
    (h : CellKept (c.get? name) (some cell)) : KeepsShape c (c.put name cell) := by
  intro n
  rw [Cells.get?_put]
  split
  next heq =>
    rw [← heq]
    exact h
  next => exact .refl _

/-- A store keeps the shape. -/
theorem keepsShape_store {c d : Cells} {path : List Key} {v : Value}
    (h : c.store path v = .ok d) : KeepsShape c d := by
  cases Cells.store_eq_ok_iff.mp h with
  | @scalar name hnone =>
    refine keepsShape_put ?_
    rcases hcell : c.get? name with _ | u | us
    · exact .created v
    · exact .scalar u v
    · exact absurd hcell (Cells.array?_eq_none_iff.mp hnone us)
  | element hvs =>
    refine keepsShape_put ?_
    rw [hvs]
    exact .array (by simp)

/-! ## Effects -/

variable {σ α : Type}

/-- The machine state that an effect leaves, also where it fails. -/
def Effect.left (effect : Effect σ α) (s : σ) : σ :=
  match effect s with
  | .ok _ s' | .error _ s' => s'

theorem Effect.left_ok {effect : Effect σ α} {s s' : σ} {a : α} (h : effect s = .ok a s') :
    effect.left s = s' := by
  rw [left, h]

theorem Effect.left_error {effect : Effect σ α} {s s' : σ} {e : RunError}
    (h : effect s = .error e s') : effect.left s = s' := by
  rw [left, h]

theorem Cells.left_load (path : List Key) (c : Cells) :
    Effect.left (MachineState.load path) c = c := by
  cases h : c.load path with
  | ok v => exact Effect.left_ok (load_of_ok h)
  | error e => exact Effect.left_error (load_of_error h)

theorem keepsShape_left_store (path : List Key) (v : Value) (c : Cells) :
    KeepsShape c (Effect.left (MachineState.store path v) c) := by
  cases h : c.store path v with
  | ok d =>
    rw [Effect.left_ok (Cells.store_of_ok h)]
    exact keepsShape_store h
  | error e =>
    rw [Effect.left_error (Cells.store_of_error h)]
    exact .refl c

/-- An effect whose failure is a result. -/
def Effect.attempt (effect : Effect σ α) : Effect σ (Except RunError α) := fun s =>
  match effect s with
  | .ok a s' => .ok (.ok a) s'
  | .error e s' => .ok (.error e) s'

theorem Effect.left_bind {β : Type} {effect : Effect σ α} {next : α → Effect σ β} {s s' : σ} {a : α}
    (h : effect s = .ok a s') : Effect.left (effect >>= next) s = (next a).left s' := by
  have hbind : (effect >>= next) s = next a s' := by
    show EStateM.bind effect next s = _
    rw [EStateM.bind, h]
  rw [left, left, hbind]

theorem Effect.exists_left_attempt {β : Type} (effect : Effect σ α)
    (next : Except RunError α → Effect σ β) (s : σ) :
    ∃ result, Effect.left (effect.attempt >>= next) s = (next result).left (effect.left s) := by
  cases h : effect s with
  | ok a s' =>
    have hattempt : effect.attempt s = .ok (.ok a) s' := by rw [attempt, h]
    exact ⟨.ok a, by rw [left_bind hattempt, left_ok h]⟩
  | error e s' =>
    have hattempt : effect.attempt s = .ok (.error e) s' := by rw [attempt, h]
    exact ⟨.error e, by rw [left_bind hattempt, left_error h]⟩

/-- What works on the machine state by loads and stores only, and goes on by how they end. -/
inductive Script
  | done (result : Except RunError Value)
  | load (path : List Key) (next : Except RunError Value → Script)
  | store (path : List Key) (v : Value) (next : Except RunError Unit → Script)

/-- Carries out a script. -/
def Script.run [MachineState σ] : Script → Effect σ Value
  | done result => Effect.ofExcept result
  | load path next => do
    let loaded ← Effect.attempt (MachineState.load path)
    (next loaded).run
  | store path v next => do
    let stored ← Effect.attempt (MachineState.store path v)
    (next stored).run

/-- **A script keeps the shape.** -/
theorem Script.keepsShape_left (script : Script) (c : Cells) :
    KeepsShape c (script.run.left c) := by
  induction script generalizing c with
  | done result =>
    cases result with
    | ok v => exact .refl c
    | error e => exact .refl c
  | load path next ih =>
    obtain ⟨loaded, hleft⟩ := Effect.exists_left_attempt (MachineState.load path)
      (fun loaded => (next loaded).run) c
    rw [run, hleft, Cells.left_load]
    exact ih loaded c
  | store path v next ih =>
    obtain ⟨stored, hleft⟩ := Effect.exists_left_attempt (MachineState.store path v)
      (fun stored => (next stored).run) c
    rw [run, hleft]
    exact (keepsShape_left_store path v c).trans (ih stored _)

/-- Whatever the arguments, the entry carries out a script. -/
def Entry.IsScripted (entry : Entry Cells) : Prop :=
  ∀ args, ∃ script : Script, entry.body args = script.run

/-! ## Programs -/

/-- The machine states are the same, and of the shape of a given one. -/
def SameShaped (start c d : Cells) : Prop :=
  c = d ∧ KeepsShape start c

theorem respects_sameShaped {start : Cells} {effect : Effect Cells α}
    (h : ∀ c, KeepsShape c (effect.left c)) : Respects (SameShaped start) effect := by
  rintro c _ ⟨rfl, hc⟩
  have hleft := hc.trans (h c)
  cases heffect : effect c with
  | ok a d =>
    rw [Effect.left_ok heffect] at hleft
    exact .ok ⟨rfl, hleft⟩
  | error e d =>
    rw [Effect.left_error heffect] at hleft
    exact .error ⟨rfl, hleft⟩

theorem exists_get?_of_provided? {σ : Type} {lib : Library σ} {callee : Expr} {entry : Entry σ}
    (h : ByName.provided? lib callee = some entry) : ∃ name, lib.get? name = some entry := by
  unfold ByName.provided? at h
  split at h
  · obtain ⟨name, -, hget⟩ := Option.bind_eq_some_iff.mp h
    exact ⟨name, hget⟩
  · cases h

/-- **A call never changes the shape of the machine state**, whether it ends or fails, and leaves as
many operands as it was given. -/
theorem Program.call_keepsShape {p : Program Cells} {r : Routine Cells} (hr : p.compile = .ok r)
    (hlib : ∀ name entry, p.library.get? name = some entry → entry.IsScripted) (c : Cells)
    (operands : List Value) :
    KeepsShape c (r.call c operands).state ∧
      (r.call c operands).operands.length = operands.length := by
  obtain ⟨ss, hss, -⟩ := Program.exists_call hr
  have huses : RespectsUses (SameShaped c) p.library (Stmt.usesOfAll ss) := by
    refine ⟨fun _ _ path _ => respects_sameShaped fun d => ?_, fun _ _ entry hentry args =>
      respects_sameShaped fun d => ?_⟩
    · rw [Cells.left_load]
      exact .refl d
    · obtain ⟨name, hname⟩ := exists_get?_of_provided? hentry
      obtain ⟨script, hscript⟩ := hlib name entry hname args
      rw [hscript]
      exact script.keepsShape_left d
  have htargets : RespectsTargets (SameShaped c) (Stmt.targetsOfAll ss) :=
    fun _ _ path v _ => respects_sameShaped (keepsShape_left_store path v)
  obtain ⟨-, -, hcount, -, hshape⟩ :=
    Program.call_alike hr hss huses htargets ⟨rfl, .refl c⟩ operands
  exact ⟨hshape, hcount⟩

/-- Gives back what stands behind a name and puts the argument there. -/
def swap (args : List Value) : Script :=
  .load [.name "n"] fun loaded =>
    .store [.name "n"] (args.headD .undefined) fun stored =>
      .done (stored.bind fun _ => loaded)

/-- A program that creates a scalar, writes by a computed key and then fails. -/
def swapProgram : Program Cells where
  name := "swap"
  locals := []
  library := Library.ofList [("swap", .function fun args => (swap args).run)]
  instructions := ["ctx.t = $swap(1)", "ctx.a[ctx.n] = 5", "ctx.a = 1"]

/-- Its routine. -/
def swapRoutine : Routine Cells where
  name := "swap"
  slots := 0
  body := [
    .assign (.context [.literal (.text "t")])
      (.call (fun args => (swap args).run) [.literal (.int 1)]),
    .assign (.context [.literal (.text "a"), .read (.context [.literal (.text "n")])])
      (.literal (.int 5)),
    .assign (.context [.literal (.text "a")]) (.literal (.int 1))]

theorem call_swapProgram :
    let c : Cells := (∅ : Cells).setZeros "a" 2 |>.setScalar "n" (.int 0)
    swapProgram.compile = .ok swapRoutine ∧
      KeepsShape c (swapRoutine.call c [.int 7]).state ∧
      (swapRoutine.call c [.int 7]).operands.length = 1 ∧
      (swapRoutine.call c [.int 7]).result = .error (.shape .scalar .array) := by
  intro c
  have hcompile : swapProgram.compile = .ok swapRoutine := by cbv
  have hlib : ∀ name entry, swapProgram.library.get? name = some entry → entry.IsScripted := by
    intro name entry hentry
    have hlibrary : swapProgram.library =
        Library.empty.insert "swap" (.function fun args => (swap args).run) := rfl
    rw [hlibrary, Library.get?_insert, Library.get?_empty] at hentry
    split at hentry <;> cases hentry
    exact fun args => ⟨swap args, rfl⟩
  obtain ⟨hshape, hcount⟩ := Program.call_keepsShape hcompile hlib c [.int 7]
  exact ⟨hcompile, hshape, hcount, by cbv⟩

end Isa16
