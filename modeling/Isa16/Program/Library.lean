import Isa16.Program.MachineState

/-!
# Host libraries

* `HostFunction`: a function that the host provides to programs.
* `Library`: host functions and constructors by name; a program reaches them as `$name`.
-/

namespace Isa16

/-- A host function: it gets the arguments and may use the machine state. -/
abbrev HostFunction (σ : Type) := List Value → Effect σ Value

/-- A host function that leaves the machine state alone. -/
def HostFunction.ofPure {σ : Type} (f : List Value → Except RunError Value) : HostFunction σ :=
  fun args => Effect.ofExcept (f args)

/-- What a name of a library stands for. Constructors are called with `new`, functions without. -/
inductive Entry (σ : Type)
  | function (body : HostFunction σ)
  | construct (body : HostFunction σ)

namespace Entry

variable {σ : Type}

/-- What the entry does, however it is called. -/
def body : Entry σ → HostFunction σ
  | function f | construct f => f

/-- The entry for a reader of logs. -/
def inspect : Entry σ → String
  | function _ => "Function(..)"
  | construct _ => "Constructor(..)"

end Entry

/-- Host entries by name. -/
structure Library (σ : Type) where
  entries : Std.ExtTreeMap String (Entry σ)

namespace Library

variable {σ : Type}

/-- The library without entries. -/
def empty : Library σ :=
  ⟨∅⟩

instance : EmptyCollection (Library σ) :=
  ⟨empty⟩

/-- The entry of a name. -/
def get? (lib : Library σ) (name : String) : Option (Entry σ) :=
  lib.entries[name]?

/-- Gives a name an entry, in place of the one it had. -/
def insert (lib : Library σ) (name : String) (entry : Entry σ) : Library σ :=
  ⟨lib.entries.insert name entry⟩

/-- Adds the entries of another library, which win over those of the same name. -/
def extend (lib other : Library σ) : Library σ :=
  ⟨lib.entries ∪ other.entries⟩

/-- The library of named entries; of one name the last counts. -/
def ofList (entries : List (String × Entry σ)) : Library σ :=
  entries.foldl (fun lib (name, entry) => lib.insert name entry) ∅

/-- The names in increasing order. -/
def names (lib : Library σ) : List String :=
  lib.entries.keys

/-- The number of names. -/
def size (lib : Library σ) : Nat :=
  lib.entries.size

/-- There is no entry. -/
def isEmpty (lib : Library σ) : Bool :=
  lib.entries.isEmpty

/-- The names for a reader of logs. -/
def inspect (lib : Library σ) : String :=
  "Library \x7b entries: [" ++ ", ".intercalate (lib.names.map inspected) ++ "] \x7d"

@[simp] theorem get?_empty (name : String) : (empty : Library σ).get? name = none := by
  simp [get?, empty]

theorem get?_insert (lib : Library σ) (m n : String) (entry : Entry σ) :
    (lib.insert m entry).get? n = if m = n then some entry else lib.get? n := by
  simp [get?, insert, Std.ExtTreeMap.getElem?_insert]

theorem get?_extend (lib other : Library σ) (name : String) :
    (lib.extend other).get? name = (other.get? name).or (lib.get? name) := by
  simp [get?, extend, Std.ExtTreeMap.getElem?_union]

end Library

end Isa16
