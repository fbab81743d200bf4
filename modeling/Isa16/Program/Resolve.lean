import Isa16.Program.Code
import Isa16.Program.CompileError
import Isa16.Program.Name
import Isa16.Program.Parse

/-!
# Making programs ready to run

* `Program`: a name, locals, a library and instructions, which are texts of statements.
* `Scope`: the names that a program may use; `Scope.code`, `Scope.place`, `Scope.action` resolve
  them in expressions, targets and statements.
* `Program.compile`: the routine of a program. Library names are checked first, then the locals in
  order, then the text is read, then its names are resolved.
-/

namespace Isa16

/-- A program in source form. -/
structure Program (σ : Type) where
  name : String
  locals : List String
  library : Library σ
  instructions : List String

/-- The text of a program: its instructions with a semicolon and a new line between them. -/
def Program.source {σ : Type} (p : Program σ) : String :=
  ";\n".intercalate p.instructions

/-- The names that a program may use besides the two roots. -/
structure Scope (σ : Type) where
  locals : List String
  library : Library σ

/-- What the innermost object of a path is. -/
inductive Root (n : Nat)
  | context
  | operands
  | slot (i : Fin n)
  deriving DecidableEq

/-- The name may be given to a local. -/
def isFreeName (name : String) : Bool :=
  isIdentifier name && !isKeyword name && name ≠ contextRoot && name ≠ operandsRoot

/-- Every local may be called so and none is declared twice; `seen` are those before. -/
def checkLocals (seen : List String) : List String → Except CompileFault Unit
  | [] => .ok ()
  | name :: rest =>
    if isFreeName name then
      if seen.contains name then .error (.duplicateLocal name)
      else checkLocals (name :: seen) rest
    else .error (.invalidLocal name)

namespace Scope

variable {σ : Type}

/-- The scope of a program, if its names are in order. -/
def ofProgram (p : Program σ) : Except CompileFault (Scope σ) :=
  match p.library.names.find? (!isIdentifier ·) with
  | some name => .error (.invalidEntryName name)
  | none => (checkLocals [] p.locals).map fun _ => ⟨p.locals, p.library⟩

/-- The number of slots. -/
abbrev slots (s : Scope σ) : Nat :=
  s.locals.length

/-- The slot of a local. -/
def slot? (s : Scope σ) (name : String) : Option (Fin s.slots) :=
  s.locals.finIdxOf? name

/-- A name that starts with a dollar sign, without the sign. -/
def entryName? (name : String) : Option String :=
  match name.toList with
  | '$' :: cs => some (String.ofList cs)
  | _ => none

/-- What the innermost object of a path is. `misuse` is the fault of a path that starts at
something without properties. -/
def root (s : Scope σ) (misuse : CompileFault) : Expr → Except CompileFault (Root s.slots)
  | .member object _ | .index object _ => s.root misuse object
  | .ident name =>
    if name = contextRoot then .ok .context
    else if name = operandsRoot then .ok .operands
    else
      match s.slot? name, entryName? name with
      | some i, _ => .ok (.slot i)
      | none, some entry =>
        if (s.library.get? entry).isSome then .error misuse else .error (.unknownEntry entry)
      | none, none => .error (.unknownIdentifier name)
  | _ => .error misuse

/-- The place that an expression denotes, given its keys in code. A path into the machine state
has at least one key, an operand has exactly one in brackets, and a local has none. -/
def placeOf (s : Scope σ) (misuse : CompileFault) (e : Expr)
    (keys : Except CompileFault (List (Code σ s.slots))) :
    Except CompileFault (Place σ s.slots) := do
  match ← s.root misuse e, e with
  | .context, .ident _ => throw misuse
  | .context, _ => return .context (← keys)
  | .operands, .index (.ident _) _ =>
    match ← keys with
    | [index] => return .operand index
    | _ => throw misuse
  | .operands, _ => throw misuse
  | .slot i, .ident _ => return .slot i
  | .slot _, _ => throw misuse

/-- The library entry that is called. -/
def entry (s : Scope σ) : Expr → Except CompileFault (Entry σ)
  | .ident name =>
    match entryName? name with
    | some entry =>
      match s.library.get? entry with
      | some found => .ok found
      | none => .error (.unknownEntry entry)
    | none =>
      if (s.slot? name).isSome ∨ name = contextRoot ∨ name = operandsRoot then
        .error (.notCallable (.ident name))
      else .error (.unknownIdentifier name)
  | callee => .error (.notCallable callee)

mutual

/-- The code of an expression. -/
def code (s : Scope σ) : Expr → Except CompileFault (Code σ s.slots)
  | .int n => return .literal (.int n)
  | .bool b => return .literal (.bool b)
  | .text t => return .literal (.text t)
  | .ident name => (s.placeOf (.notAValue (.ident name)) (.ident name) (.ok [])).map .read
  | .member object name => do
    let e := Expr.member object name
    (s.placeOf (.notAValue e) e
      ((s.keys object).map (· ++ [.literal (.text name)]))).map .read
  | .index object key => do
    let e := Expr.index object key
    (s.placeOf (.notAValue e) e do
      let keys ← s.keys object
      let last ← s.code key
      return keys ++ [last]).map .read
  | .call callee args => do
    match ← s.entry callee with
    | .function f => return .call f (← s.codes args)
    | .construct _ => throw (.constructorCalled callee)
  | .construct callee args => do
    match ← s.entry callee with
    | .construct f => return .call f (← s.codes args)
    | .function _ => throw (.notConstructible callee)
  | .unary op operand => do
    let c ← s.code operand
    return .unary op c
  | .binary op lhs rhs => do
    let l ← s.code lhs
    let r ← s.code rhs
    return .binary op l r
  | .conditional condition whenTrue whenFalse => do
    let c ← s.code condition
    let t ← s.code whenTrue
    let f ← s.code whenFalse
    return .conditional c t f

/-- The keys of a path in code, the innermost first. A dotted name is the key of that text. -/
def keys (s : Scope σ) : Expr → Except CompileFault (List (Code σ s.slots))
  | .member object name => do
    let keys ← s.keys object
    return keys ++ [.literal (.text name)]
  | .index object key => do
    let keys ← s.keys object
    let last ← s.code key
    return keys ++ [last]
  | _ => return []

/-- The code of expressions in order. -/
def codes (s : Scope σ) : List Expr → Except CompileFault (List (Code σ s.slots))
  | [] => return []
  | e :: es => do
    let c ← s.code e
    let cs ← s.codes es
    return c :: cs

end

/-- The place that an assignment writes to. -/
def place (s : Scope σ) (target : Expr) : Except CompileFault (Place σ s.slots) :=
  s.placeOf (.notAssignable target) target (s.keys target)

mutual

/-- A statement in code. -/
def action (s : Scope σ) : Stmt → Except CompileFault (Action σ s.slots)
  | .expr e => do
    let c ← s.code e
    return .eval c
  | .assign target value => do
    let p ← s.place target
    let c ← s.code value
    return .assign p c
  | .ite condition whenTrue whenFalse => do
    let c ← s.code condition
    let t ← s.actions whenTrue
    let f ← s.actions whenFalse
    return .branch c t f

/-- Statements in code, in order. -/
def actions (s : Scope σ) : List Stmt → Except CompileFault (List (Action σ s.slots))
  | [] => return []
  | stmt :: rest => do
    let a ← s.action stmt
    let as ← s.actions rest
    return a :: as

end

end Scope

namespace Program

variable {σ : Type}

/-- The routine of a program, or the first fault. -/
def routine (p : Program σ) : Except CompileFault (Routine σ) := do
  let s ← Scope.ofProgram p
  match parse p.source with
  | .error e => throw (.text e)
  | .ok statements =>
    let body ← s.actions statements
    return ⟨p.name, s.slots, body⟩

/-- The routine of a program, or the first fault with the program's name. -/
def compile (p : Program σ) : Except CompileError (Routine σ) :=
  p.routine.mapError fun cause => ⟨p.name, cause⟩

end Program

end Isa16
