import Isa16.Program.SyntaxError
import Isa16.Program.Tree

/-!
# Faults of a program

* `CompileFault`: why a program cannot be made ready to run.
* `CompileError`: the fault with the program's name.
-/

namespace Isa16

/-- Why a program cannot be made ready to run. -/
inductive CompileFault
  | text (e : SyntaxError)
  | unknownIdentifier (name : String)
  | unknownEntry (name : String)
  | invalidEntryName (name : String)
  | invalidLocal (name : String)
  | duplicateLocal (name : String)
  | notAssignable (target : Expr)
  | notCallable (callee : Expr)
  /-- A constructor is called without `new`. -/
  | constructorCalled (callee : Expr)
  | notConstructible (callee : Expr)
  | notAValue (e : Expr)

/-- The wording of a fault. -/
def CompileFault.message : CompileFault → String
  | text e => e.message
  | unknownIdentifier name => s!"unknown identifier '{name}'"
  | unknownEntry name => s!"library does not provide '{name}'"
  | invalidEntryName name => s!"library entry '{name}' is not a bindable identifier"
  | invalidLocal name => s!"local '{name}' is not a valid or free identifier"
  | duplicateLocal name => s!"local '{name}' declared twice"
  | notAssignable target => s!"cannot assign to {target.describe}"
  | notCallable callee => s!"{callee.describe} is not callable"
  | constructorCalled callee => s!"constructor {callee.describe} (use 'new') is not callable"
  | notConstructible callee => s!"{callee.describe} cannot be used with 'new'"
  | notAValue e => s!"{e.describe} cannot be used as a value"

/-- A program that cannot be made ready to run, by its name, and the fault. -/
structure CompileError where
  program : String
  cause : CompileFault

/-- The wording, without the cause. -/
def CompileError.message (e : CompileError) : String :=
  s!"failed to compile '{e.program}'"

end Isa16
