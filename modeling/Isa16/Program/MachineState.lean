import Isa16.Program.Value
import Std.Data.ExtTreeMap.Basic
import Std.Data.ExtTreeMap.Lemmas

/-!
# Machine states

* `MachineState`: states that programs read and write by paths.
* `Cells`: the plain machine state, named scalars and named arrays of fixed length.
* `Cells.load`, `Cells.store`: a path is a scalar's name, or an array's name and an index. A store
  may create a scalar and never an array.
-/

namespace Isa16

/-- Something that works on a machine state and may fail, keeping what it did. -/
abbrev Effect (σ α : Type) := EStateM RunError σ α

/-- A pure result as an effect that leaves the state alone. -/
def Effect.ofExcept {σ α : Type} : Except RunError α → Effect σ α
  | .ok a, s => .ok a s
  | .error e, s => .error e s

/-- States that programs read and write by paths. -/
class MachineState (σ : Type) where
  load : List Key → Effect σ Value
  store : List Key → Value → Effect σ Unit

/-- What stands behind a name. -/
inductive Cell
  | scalar (v : Value)
  | array (vs : Array Value)
  deriving DecidableEq

/-- Named scalars and named arrays of fixed length. -/
structure Cells where
  entries : Std.ExtTreeMap String Cell
  deriving DecidableEq

namespace Cells

/-- No name holds anything. -/
def empty : Cells :=
  ⟨∅⟩

instance : EmptyCollection Cells :=
  ⟨empty⟩

/-- What stands behind a name. -/
def get? (c : Cells) (name : String) : Option Cell :=
  c.entries[name]?

/-- Puts a cell behind a name, in place of what was there. -/
def put (c : Cells) (name : String) (cell : Cell) : Cells :=
  ⟨c.entries.insert name cell⟩

/-- Puts a scalar behind a name. -/
def setScalar (c : Cells) (name : String) (v : Value) : Cells :=
  c.put name (.scalar v)

/-- Puts an array of zeros behind a name. -/
def setZeros (c : Cells) (name : String) (size : Nat) : Cells :=
  c.put name (.array (Array.replicate size (.int 0)))

/-- The scalar behind a name. -/
def scalar? (c : Cells) (name : String) : Option Value :=
  match c.get? name with
  | some (.scalar v) => some v
  | _ => none

/-- The array behind a name. -/
def array? (c : Cells) (name : String) : Option (Array Value) :=
  match c.get? name with
  | some (.array vs) => some vs
  | _ => none

/-- An element of an array. -/
def element? (c : Cells) (name : String) (index : Nat) : Option Value :=
  (c.array? name).bind (·[index]?)

/-- The scalar behind a name as an integer. -/
def int? (c : Cells) (name : String) : Option Int64 :=
  (c.scalar? name).bind Value.number?

/-- Writes an element of an array, if there is one at the index. -/
def setElement? (c : Cells) (name : String) (index : Nat) (v : Value) : Option Cells :=
  match c.array? name with
  | some vs =>
    if index < vs.size then some (c.put name (.array (vs.setIfInBounds index v))) else none
  | none => none

/-- The value at a path. -/
def load (c : Cells) (path : List Key) : Except RunError Value :=
  match path with
  | [.name name] =>
    match c.get? name with
    | some (.scalar v) => .ok v
    | some (.array _) => .error (.shape .scalar .array)
    | none => .error (.unknownPath path)
  | [.name name, .index i] =>
    match i.toInt.toNat?.bind (c.element? name) with
    | some v => .ok v
    | none => .error (.unknownPath path)
  | _ => .error (.unknownPath path)

/-- The state with a value at a path. -/
def store (c : Cells) (path : List Key) (v : Value) : Except RunError Cells :=
  match path with
  | [.name name] =>
    match c.get? name with
    | some (.array _) => .error (.shape .scalar .array)
    | _ => .ok (c.setScalar name v)
  | [.name name, .index i] =>
    match i.toInt.toNat?.bind fun index => c.setElement? name index v with
    | some c' => .ok c'
    | none => .error (.unknownPath path)
  | _ => .error (.unknownPath path)

instance : MachineState Cells where
  load path c := Effect.ofExcept (c.load path) c
  store path v c :=
    match c.store path v with
    | .ok c' => .ok () c'
    | .error e => .error e c

/-! ## The view by names -/

@[simp] theorem get?_empty (name : String) : empty.get? name = none := by
  simp [get?, empty]

theorem get?_put (c : Cells) (m n : String) (cell : Cell) :
    (c.put m cell).get? n = if m = n then some cell else c.get? n := by
  simp [get?, put, Std.ExtTreeMap.getElem?_insert]

theorem ext_get? {c d : Cells} (h : ∀ name, c.get? name = d.get? name) : c = d := by
  cases c
  cases d
  exact congrArg Cells.mk (Std.ExtTreeMap.ext_getElem? h)

end Cells

end Isa16
