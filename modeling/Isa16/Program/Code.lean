import Isa16.Program.Library

/-!
# Resolved code

* `Code`, `Place`, `Action`: expressions, the places they are read from and written to, and
  statements, with every name resolved: locals are slots, library names are host functions, and
  paths of the machine state are lists of keys.
* `Frame`: what an activation works on.
* `Code.eval`, `Action.run`: evaluation from left to right. It stops at the first fault and keeps
  the effects made so far.
* `Routine`, `Routine.call`: a program ready to run.
-/

namespace Isa16

mutual

/-- Expressions over `n` slots. -/
inductive Code (σ : Type) (n : Nat) : Type
  | literal (v : Value)
  | read (place : Place σ n)
  | call (function : HostFunction σ) (args : List (Code σ n))
  | unary (op : UnaryOp) (operand : Code σ n)
  | binary (op : BinaryOp) (lhs rhs : Code σ n)
  | conditional (condition whenTrue whenFalse : Code σ n)

/-- Places over `n` slots. -/
inductive Place (σ : Type) (n : Nat) : Type
  | slot (i : Fin n)
  | operand (index : Code σ n)
  | context (keys : List (Code σ n))

end

/-- Statements over `n` slots. -/
inductive Action (σ : Type) (n : Nat) : Type
  | eval (e : Code σ n)
  | assign (target : Place σ n) (value : Code σ n)
  | branch (condition : Code σ n) (whenTrue whenFalse : List (Action σ n))

/-- A place whose keys have been evaluated. -/
inductive Location (n : Nat)
  | slot (i : Fin n)
  | operand (index : Nat)
  | context (path : List Key)
  deriving DecidableEq

/-- What an activation works on: the machine state, the operand values and the locals. -/
structure Frame (σ : Type) (n : Nat) where
  state : σ
  operands : List Value
  locals : Vector Value n

/-- A step of an activation. -/
abbrev Activation (σ : Type) (n : Nat) (α : Type) := EStateM RunError (Frame σ n) α

namespace Activation

variable {σ α : Type} {n : Nat}

/-- An effect on the machine state as a step of an activation. -/
def onState (effect : Effect σ α) : Activation σ n α := fun frame =>
  match effect frame.state with
  | .ok a state => .ok a { frame with state }
  | .error e state => .error e { frame with state }

/-- A pure result as a step of an activation. -/
def ofExcept : Except RunError α → Activation σ n α
  | .ok a, frame => .ok a frame
  | .error e, frame => .error e frame

variable [MachineState σ]

/-- The value at a location. -/
def load : Location n → Activation σ n Value
  | .slot i, frame => .ok frame.locals[i] frame
  | .operand index, frame => .ok (frame.operands.getD index .undefined) frame
  | .context path, frame => onState (MachineState.load path) frame

/-- Writes the value at a location. -/
def store : Location n → Value → Activation σ n Unit
  | .slot i, v, frame => .ok () { frame with locals := frame.locals.set i v }
  | .operand index, v, frame => .ok () { frame with operands := frame.operands.set index v }
  | .context path, v, frame => onState (MachineState.store path v) frame

end Activation

/-- The position that an integer names among so many operands. -/
def operandPosition (index : Int64) (count : Nat) : Except RunError Nat :=
  match index.toInt.toNat? with
  | some i => if i < count then .ok i else .error (.operandIndex index count)
  | none => .error (.operandIndex index count)

section Evaluation

variable {σ : Type} {n : Nat} [MachineState σ]

mutual

/-- The value of an expression. -/
def Code.eval : Code σ n → Activation σ n Value
  | .literal v => return v
  | .read place => do
    let location ← place.locate
    Activation.load location
  | .call function args => do
    let values ← Code.evalAll args
    Activation.onState (function values)
  | .unary op operand => do
    let v ← operand.eval
    Activation.ofExcept (op.apply v)
  | .binary op lhs rhs => do
    let a ← lhs.eval
    match ← Activation.ofExcept (op.settle? a) with
    | some v => return v
    | none =>
      let b ← rhs.eval
      Activation.ofExcept (op.apply a b)
  | .conditional condition whenTrue whenFalse => do
    let v ← condition.eval
    if v.toBool then whenTrue.eval else whenFalse.eval

/-- The values of expressions, from the first to the last. -/
def Code.evalAll : List (Code σ n) → Activation σ n (List Value)
  | [] => return []
  | e :: es => do
    let v ← e.eval
    let vs ← Code.evalAll es
    return v :: vs

/-- The keys that expressions denote, each checked before the next is evaluated. -/
def Code.evalKeys : List (Code σ n) → Activation σ n (List Key)
  | [] => return []
  | e :: es => do
    let v ← e.eval
    let key ← Activation.ofExcept (Key.ofValue v)
    let keys ← Code.evalKeys es
    return key :: keys

/-- The location of a place. An operand's position has to be one of the operands. -/
def Place.locate : Place σ n → Activation σ n (Location n)
  | .slot i => return .slot i
  | .operand index => do
    let v ← index.eval
    let i ← Activation.ofExcept v.number
    let frame ← get
    let position ← Activation.ofExcept (operandPosition i frame.operands.length)
    return .operand position
  | .context keys => do
    let path ← Code.evalKeys keys
    return .context path

end

mutual

/-- Runs a statement. An assignment locates its target before it evaluates the value. -/
def Action.run : Action σ n → Activation σ n Unit
  | .eval e => do
    let _ ← e.eval
    return ()
  | .assign target value => do
    let location ← target.locate
    let v ← value.eval
    Activation.store location v
  | .branch condition whenTrue whenFalse => do
    let v ← condition.eval
    if v.toBool then Action.runAll whenTrue else Action.runAll whenFalse

/-- Runs statements in order. -/
def Action.runAll : List (Action σ n) → Activation σ n Unit
  | [] => return ()
  | a :: rest => do
    a.run
    Action.runAll rest

end

end Evaluation

/-- A program ready to run. -/
structure Routine (σ : Type) where
  name : String
  slots : Nat
  body : List (Action σ slots)

/-- How a call ended, and what it left. -/
structure Completion (σ : Type) where
  result : Except RunError Unit
  state : σ
  operands : List Value

/-- Calls a routine. Its locals start undefined; writes to operands show in the completion. -/
def Routine.call {σ : Type} [MachineState σ] (r : Routine σ) (state : σ) (operands : List Value) :
    Completion σ :=
  match Action.runAll r.body ⟨state, operands, Vector.replicate r.slots .undefined⟩ with
  | .ok () frame => ⟨.ok (), frame.state, frame.operands⟩
  | .error e frame => ⟨.error e, frame.state, frame.operands⟩

end Isa16
