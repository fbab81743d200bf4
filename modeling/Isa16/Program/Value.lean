import Isa16.Bits
import Isa16.Program.RunError

/-!
# Values

* `Value`: what expressions denote. An object is a handle that only the host can look into.
* `Value.number`, `Value.toBool`, `Value.alike`, `Value.text`: the views that programs take.
* `UnaryOp.apply`, `BinaryOp.settle?`, `BinaryOp.apply`: the operators on values.
-/

namespace Isa16

/-- The handle of a host object. -/
structure ObjectId where
  id : Nat
  deriving DecidableEq

/-- The value of an expression. -/
inductive Value
  | undefined
  | int (n : Int64)
  | bool (b : Bool)
  | text (s : String)
  | object (id : ObjectId)
  deriving DecidableEq, Inhabited

namespace Value

/-- A word as a value. -/
def ofWord {w : Nat} (a : BitVec w) : Value :=
  .int (Int64.ofNat a.toNat)

/-- A number as a value; numbers from `2 ^ 63` on wrap. -/
def ofNat (n : Nat) : Value :=
  .int (Int64.ofNat n)

/-- The kind of a value. -/
def shape : Value → Shape
  | undefined => .undefined
  | int _ => .int
  | bool _ => .bool
  | text _ => .string
  | object _ => .object

/-- The value of an integer or a truth value as a number. -/
def number? : Value → Option Int64
  | int n => some n
  | bool b => some (if b then 1 else 0)
  | undefined | text _ | object _ => none

/-- The value as an integer, where it has to be one. -/
def number (v : Value) : Except RunError Int64 :=
  match v.number? with
  | some n => .ok n
  | none => .error (.shape .int v.shape)

/-- The value counts as true. -/
def toBool : Value → Bool
  | undefined => false
  | int n => n ≠ 0
  | bool b => b
  | text s => s ≠ ""
  | object _ => true

/-- The characters of a string. -/
def text? : Value → Option String
  | text s => some s
  | _ => none

/-- Equality of numbers across integers and truth values, and of like values otherwise. -/
def alike (a b : Value) : Bool :=
  match a.number?, b.number? with
  | some m, some n => m = n
  | none, none => a = b
  | _, _ => false

/-- The value as text, for joining to a string. -/
def toText : Value → String
  | undefined => "undefined"
  | int n => toString n.toInt
  | bool b => toString b
  | text s => s
  | object _ => "[object]"

/-- The value with its kind, for a reader of logs. -/
def inspect : Value → String
  | undefined => "Undefined"
  | int n => s!"Int({n.toInt})"
  | bool b => s!"Bool({b})"
  | text s => s!"Str({inspected s})"
  | object _ => "Object(..)"

end Value

/-- The key that a value is between brackets. -/
def Key.ofValue : Value → Except RunError Key
  | .int i => .ok (.index i)
  | .text s => .ok (.name s)
  | v => .error (.invalidKey v.shape)

/-! ## Operators -/

/-- The value of an operator in front of a value. -/
def UnaryOp.apply : UnaryOp → Value → Except RunError Value
  | not, v => .ok (.bool !v.toBool)
  | neg, v => v.number.map fun n => .int (-n)
  | bitNot, v => v.number.map fun n => .int (~~~n)

namespace BinaryOp

/-- What the left operand settles before the right one is looked at: the value of `||` and `&&`
in one case, and the fault of an operator that needs an integer. -/
def settle? : BinaryOp → Value → Except RunError (Option Value)
  | or, a => .ok (if a.toBool then some (.bool true) else none)
  | and, a => .ok (if a.toBool then none else some (.bool false))
  | eq, _ | ne, _ | add, _ => .ok none
  | _, a => a.number.map fun _ => none

/-- An operator's function of two integers. -/
def onInts : BinaryOp → Int64 → Int64 → Except RunError Value
  | bitOr, m, n => .ok (.int (m ||| n))
  | bitXor, m, n => .ok (.int (m ^^^ n))
  | bitAnd, m, n => .ok (.int (m &&& n))
  | lt, m, n => .ok (.bool (m < n))
  | le, m, n => .ok (.bool (m ≤ n))
  | gt, m, n => .ok (.bool (n < m))
  | ge, m, n => .ok (.bool (n ≤ m))
  | shl, m, n => .ok (.int (m <<< n))
  | shr, m, n => .ok (.int (m >>> n))
  | add, m, n => .ok (.int (m + n))
  | sub, m, n => .ok (.int (m - n))
  | mul, m, n => .ok (.int (m * n))
  | div, m, n => if n = 0 then .error .divisionByZero else .ok (.int (m / n))
  | rem, m, n => if n = 0 then .error .divisionByZero else .ok (.int (m % n))
  | or, m, n => .ok (.bool (m ≠ 0 || n ≠ 0))
  | and, m, n => .ok (.bool (m ≠ 0 && n ≠ 0))
  | eq, m, n => .ok (.bool (m = n))
  | ne, m, n => .ok (.bool (m ≠ n))

/-- The value of an operator between two values. Integers wrap at 64 bits, shifts take the count
modulo 64, and division goes toward zero. -/
def apply (op : BinaryOp) (a b : Value) : Except RunError Value :=
  match op, a, b with
  | or, a, b => .ok (.bool (a.toBool || b.toBool))
  | and, a, b => .ok (.bool (a.toBool && b.toBool))
  | eq, a, b => .ok (.bool (a.alike b))
  | ne, a, b => .ok (.bool !a.alike b)
  | add, .text s, b => .ok (.text (s ++ b.toText))
  | add, a, .text t => .ok (.text (a.toText ++ t))
  | op, a, b => do
    let m ← a.number
    let n ← b.number
    op.onInts m n

end BinaryOp

end Isa16
