import Isa16.Program.Tree

/-!
# Paths and faults of a running program

* `Key`, `pathText`: where in the machine state a value stands, `ctx.V[3]`.
* `Shape`: the kinds of things that faults speak of.
* `RunError`: why a running program stops; `RunError.message` is the wording.
-/

namespace Isa16

/-- One step of a path into the machine state. -/
inductive Key
  | name (name : String)
  | index (i : Int64)
  deriving DecidableEq

/-- The step as written behind an object. -/
def Key.text : Key → String
  | name n => s!".{n}"
  | index i => s!"[{i.toInt}]"

/-- A path from the root of the machine state. -/
def pathText (path : List Key) : String :=
  path.foldl (fun text key => text ++ key.text) "ctx"

/-- The kinds of values, and of places that hold them. -/
inductive Shape
  | undefined
  | int
  | bool
  | string
  | object
  | scalar
  | array
  deriving DecidableEq

/-- The kind's name. -/
def Shape.text : Shape → String
  | undefined => "undefined"
  | int => "int"
  | bool => "bool"
  | string => "string"
  | object => "object"
  | scalar => "scalar"
  | array => "array"

/-- What is wrong with the arguments of a library function. -/
inductive ArgumentFault
  /-- Fewer arguments than needed. -/
  | missing (atLeast given : Nat)
  /-- An argument that is no word of the width. -/
  | wide (index : Nat) (value : Int64) (bits : Nat)
  /-- A count that is no 32-bit number. -/
  | badCount (count : Int64)
  deriving DecidableEq

/-- The wording of an argument's fault. -/
def ArgumentFault.message : ArgumentFault → String
  | missing atLeast given => s!"expected at least {atLeast} argument(s), got {given}"
  | wide index value bits => s!"argument {index} ({value.toInt}) does not fit {bits} bits"
  | badCount count => s!"shift count {count.toInt} must be non-negative"

/-- Why a running program stops short. -/
inductive RunError
  | shape (expected found : Shape)
  | operandIndex (index : Int64) (count : Nat)
  | unknownPath (path : List Key)
  | invalidKey (found : Shape)
  | divisionByZero
  | argument (function : String) (fault : ArgumentFault)
  /-- A fault of the host's own. -/
  | host (message : String)
  deriving DecidableEq

/-- The wording of a fault. -/
def RunError.message : RunError → String
  | shape expected found => s!"type error: expected {expected.text}, found {found.text}"
  | operandIndex index count =>
    s!"operand index {index.toInt} out of range for {count} operand(s)"
  | unknownPath path => s!"context has no entry at '{pathText path}'"
  | invalidKey found => s!"{found.text} cannot be used as a property key"
  | divisionByZero => "division by zero"
  | argument function fault => s!"bad argument to '{function}': {fault.message}"
  | host message => s!"host error: {message}"

end Isa16
