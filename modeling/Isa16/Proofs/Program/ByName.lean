import Isa16.Program.Resolve
import Mathlib

/-!
# Evaluation by name

* `NamedFrame`: what an evaluation works on. Locals are found by their names.
* `ByName.unary`, `ByName.onIntegers`: the operators, on integers without bounds whose results wrap
  at 64 bits.
* `ByName.eval`, `ByName.locate`, `ByName.exec`: expressions, targets and statements are evaluated
  as they were read, from left to right. A name is looked up each time it is met, in the locals or
  in the library.
* `Program.interpret`: the statements of a program's text, with all locals undefined at the start.

Where a name stands for nothing that could be used so, the evaluation is stuck. This is no fault
of the program's.
-/

namespace Isa16

/-- What an evaluation by name works on. -/
structure NamedFrame (σ : Type) where
  state : σ
  operands : List Value
  locals : Std.ExtTreeMap String Value

/-- Why an evaluation by name ends before its end. -/
inductive Stop
  | fault (e : RunError)
  | stuck

namespace ByName

/-- A step of an evaluation. -/
abbrev Evaluation (σ α : Type) := EStateM Stop (NamedFrame σ) α

/-- A place with a name, among the operands, or in the machine state. -/
inductive Spot
  | named (name : String)
  | operand (index : Nat)
  | context (path : List Key)

/-! ## Operators -/

/-- The 64 bits of an integer's two's complement, as a natural number. -/
def bits (n : Int) : Nat :=
  (n % 2 ^ 64).toNat

/-- By how many positions a shift moves bits. -/
def positions (n : Int) : Nat :=
  (n % 64).toNat

/-- An operator in front of a value. -/
def unary : UnaryOp → Value → Except RunError Value
  | .not, v => .ok (.bool !v.toBool)
  | .neg, v => v.number.map fun n => .int (.ofInt (-n.toInt))
  | .bitNot, v => v.number.map fun n => .int (.ofInt (-n.toInt - 1))

/-- An operator between two integers. A shift is a product with a power of two or the floor of a
quotient, and division goes toward zero. -/
def onIntegers : BinaryOp → Int → Int → Except RunError Value
  | .or, m, n => .ok (.bool (m ≠ 0 ∨ n ≠ 0))
  | .and, m, n => .ok (.bool (m ≠ 0 ∧ n ≠ 0))
  | .bitOr, m, n => .ok (.int (.ofNat (bits m ||| bits n)))
  | .bitXor, m, n => .ok (.int (.ofNat (bits m ^^^ bits n)))
  | .bitAnd, m, n => .ok (.int (.ofNat (bits m &&& bits n)))
  | .eq, m, n => .ok (.bool (m = n))
  | .ne, m, n => .ok (.bool (m ≠ n))
  | .lt, m, n => .ok (.bool (m < n))
  | .le, m, n => .ok (.bool (m ≤ n))
  | .gt, m, n => .ok (.bool (m > n))
  | .ge, m, n => .ok (.bool (m ≥ n))
  | .shl, m, n => .ok (.int (.ofInt (m * 2 ^ positions n)))
  | .shr, m, n => .ok (.int (.ofInt (m / 2 ^ positions n)))
  | .add, m, n => .ok (.int (.ofInt (m + n)))
  | .sub, m, n => .ok (.int (.ofInt (m - n)))
  | .mul, m, n => .ok (.int (.ofInt (m * n)))
  | .div, m, n => if n = 0 then .error .divisionByZero else .ok (.int (.ofInt (m.tdiv n)))
  | .rem, m, n => if n = 0 then .error .divisionByZero else .ok (.int (.ofInt (m.tmod n)))

/-! ## Steps -/

section Steps

variable {σ α : Type}

def stuck : Evaluation σ α :=
  throw .stuck

def check : Except RunError α → Evaluation σ α
  | .ok a => return a
  | .error e => throw (.fault e)

def onState (effect : Effect σ α) : Evaluation σ α := fun frame =>
  match effect frame.state with
  | .ok a state => .ok a { frame with state }
  | .error e state => .error (.fault e) { frame with state }

def localSpot (name : String) : Evaluation σ Spot := do
  let frame ← get
  if frame.locals.contains name then return .named name else stuck

/-- The spot of an operand, whose position is an integer and one of the operands. -/
def operandSpot (index : Evaluation σ Value) : Evaluation σ Spot := do
  let v ← index
  let i ← check v.number
  let frame ← get
  let position ← check (operandPosition i frame.operands.length)
  return .operand position

/-- A path with one more key. -/
def extend (path : Evaluation σ (List Key)) (key : Evaluation σ Value) :
    Evaluation σ (List Key) := do
  let keys ← path
  let v ← key
  let last ← check (Key.ofValue v)
  return keys ++ [last]

/-- A sum of integers, or a text if one of the values is one. -/
def add : Value → Value → Evaluation σ Value
  | .text s, b => return .text (s ++ b.toText)
  | a, .text t => return .text (a.toText ++ t)
  | a, b => do
    let m ← check a.number
    let n ← check b.number
    check (onIntegers .add m.toInt n.toInt)

/-- An operator between operands. The right operand of `||` and `&&` is not evaluated if the left
one decides; an operator on integers wants the left operand to be one before it evaluates the
right one. -/
def combine (op : BinaryOp) (lhs rhs : Evaluation σ Value) : Evaluation σ Value := do
  let a ← lhs
  match op with
  | .or =>
    if a.toBool then return .bool true
    else do
      let b ← rhs
      return .bool b.toBool
  | .and =>
    if a.toBool then do
      let b ← rhs
      return .bool b.toBool
    else return .bool false
  | .eq => do
    let b ← rhs
    return .bool (a.alike b)
  | .ne => do
    let b ← rhs
    return .bool !a.alike b
  | .add => do
    let b ← rhs
    add a b
  | op => do
    let m ← check a.number
    let b ← rhs
    let n ← check b.number
    check (onIntegers op m.toInt n.toInt)

variable [MachineState σ]

/-- The value at a spot. -/
def load : Spot → Evaluation σ Value
  | .named name => do
    let frame ← get
    match frame.locals[name]? with
    | some v => return v
    | none => stuck
  | .operand index => do
    let frame ← get
    match frame.operands[index]? with
    | some v => return v
    | none => stuck
  | .context path => onState (MachineState.load path)

def store (v : Value) : Spot → Evaluation σ Unit
  | .named name => do
    let frame ← get
    if frame.locals.contains name then set { frame with locals := frame.locals.insert name v }
    else stuck
  | .operand index => do
    let frame ← get
    if index < frame.operands.length then
      set { frame with operands := frame.operands.set index v }
    else stuck
  | .context path => onState (MachineState.store path v)

end Steps

def isOperands : Expr → Bool
  | .ident name => name = operandsRoot
  | _ => false

/-- The library entry that an expression names. -/
def provided? {σ : Type} (lib : Library σ) : Expr → Option (Entry σ)
  | .ident name => (Scope.entryName? name).bind lib.get?
  | _ => none

/-- The spot behind brackets, given its object's path and its key. -/
def indexSpot {σ : Type} (object : Expr) (path : Evaluation σ (List Key))
    (key : Evaluation σ Value) : Evaluation σ Spot :=
  if isOperands object then operandSpot key
  else do
    let keys ← extend path key
    return .context keys

section Trees

variable {σ : Type} [MachineState σ]

mutual

/-- The value of an expression. -/
def eval (lib : Library σ) : Expr → Evaluation σ Value
  | .int n => return .int n
  | .bool b => return .bool b
  | .text s => return .text s
  | .ident name => do
    let spot ← localSpot name
    load spot
  | .member object name => do
    let keys ← path lib object
    load (.context (keys ++ [.name name]))
  | .index object key => do
    let spot ← indexSpot object (path lib object) (eval lib key)
    load spot
  | .call callee args =>
    match provided? lib callee with
    | some (.function f) => do
      let values ← evalAll lib args
      onState (f values)
    | _ => stuck
  | .construct callee args =>
    match provided? lib callee with
    | some (.construct f) => do
      let values ← evalAll lib args
      onState (f values)
    | _ => stuck
  | .unary op operand => do
    let v ← eval lib operand
    check (unary op v)
  | .binary op lhs rhs => combine op (eval lib lhs) (eval lib rhs)
  | .conditional condition whenTrue whenFalse => do
    let v ← eval lib condition
    if v.toBool then eval lib whenTrue else eval lib whenFalse

/-- The keys of a path into the machine state, the innermost first. -/
def path (lib : Library σ) : Expr → Evaluation σ (List Key)
  | .ident name => if name = contextRoot then return [] else stuck
  | .member object name => do
    let keys ← path lib object
    return keys ++ [.name name]
  | .index object key => extend (path lib object) (eval lib key)
  | _ => stuck

def evalAll (lib : Library σ) : List Expr → Evaluation σ (List Value)
  | [] => return []
  | e :: es => do
    let v ← eval lib e
    let vs ← evalAll lib es
    return v :: vs

end

def locate (lib : Library σ) : Expr → Evaluation σ Spot
  | .ident name => localSpot name
  | .member object name => do
    let keys ← path lib object
    return .context (keys ++ [.name name])
  | .index object key => indexSpot object (path lib object) (eval lib key)
  | _ => stuck

mutual

/-- Carries out a statement. -/
def exec (lib : Library σ) : Stmt → Evaluation σ Unit
  | .expr e => do
    let _ ← eval lib e
    return ()
  | .assign target value => do
    let spot ← locate lib target
    let v ← eval lib value
    store v spot
  | .ite condition whenTrue whenFalse => do
    let v ← eval lib condition
    if v.toBool then execAll lib whenTrue else execAll lib whenFalse

def execAll (lib : Library σ) : List Stmt → Evaluation σ Unit
  | [] => return ()
  | s :: ss => do
    exec lib s
    execAll lib ss

end

end Trees

def undefinedLocals (names : List String) : Std.ExtTreeMap String Value :=
  names.foldl (fun locals name => locals.insert name .undefined) ∅

end ByName

namespace Program

variable {σ : Type} [MachineState σ]

/-- Carries out the statements of a text as a program's. -/
def execute (p : Program σ) (statements : List Stmt) (state : σ) (operands : List Value) :
    EStateM.Result Stop (NamedFrame σ) Unit :=
  ByName.execAll p.library statements ⟨state, operands, ByName.undefinedLocals p.locals⟩

/-- How an evaluation completes a call, `none` if it gets stuck. -/
def completion? : EStateM.Result Stop (NamedFrame σ) Unit → Option (Completion σ)
  | .ok () frame => some ⟨.ok (), frame.state, frame.operands⟩
  | .error (.fault e) frame => some ⟨.error e, frame.state, frame.operands⟩
  | .error .stuck _ => none

/-- Calls a program by its text, `none` if the text is none or the evaluation gets stuck. -/
def interpret (p : Program σ) (state : σ) (operands : List Value) : Option (Completion σ) :=
  match parse p.source with
  | .error _ => none
  | .ok statements => completion? (p.execute statements state operands)

end Program

end Isa16
