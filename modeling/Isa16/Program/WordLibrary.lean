import Isa16.Program.Library

/-!
# Word arithmetic for programs

* `wordLibrary`: the functions on words of one width, their names ending in the width: `add8`,
  `carry16`, `rotl8`.
* `arithmeticLibrary`: those of eight and of sixteen bits.

Word arguments have to be words of the width as they stand; only `wrap` takes any integer.
-/

namespace Isa16

/-! ## Arguments -/

/-- The argument at a position, as an integer. -/
def intArgument (function : String) (args : List Value) (index : Nat) : Except RunError Int64 :=
  match args[index]? with
  | some v => v.number
  | none => .error (.argument function (.missing (index + 1) args.length))

/-- The argument at a position, as a word. -/
def wordArgument (w : Nat) (function : String) (args : List Value) (index : Nat) :
    Except RunError (BitVec w) := do
  let n ← intArgument function args index
  if Bits.fits w n.toInt then return BitVec.ofInt w n.toInt
  else throw (.argument function (.wide index n w))

/-- The argument at a position, as the count of a shift: any 32-bit number. -/
def countArgument (function : String) (args : List Value) (index : Nat) :
    Except RunError Nat := do
  let n ← intArgument function args index
  if Bits.fits 32 n.toInt then return n.toInt.toNat
  else throw (.argument function (.badCount n))

/-! ## Functions -/

/-- What a library function computes, given its own name for messages. -/
abbrev NamedFn := String → List Value → Except RunError Value

/-- A function of one word. -/
def onWord (w : Nat) (f : BitVec w → Value) : NamedFn := fun name args => do
  let a ← wordArgument w name args 0
  return f a

/-- A function of two words. -/
def onWords (w : Nat) (f : BitVec w → BitVec w → Value) : NamedFn := fun name args => do
  let a ← wordArgument w name args 0
  let b ← wordArgument w name args 1
  return f a b

/-- A function of a word and a count. -/
def onWordCount (w : Nat) (f : BitVec w → Nat → BitVec w) : NamedFn := fun name args => do
  let a ← wordArgument w name args 0
  let n ← countArgument name args 1
  return .ofWord (f a n)

/-- The residue of any integer. -/
def wrapInt (w : Nat) : NamedFn := fun name args => do
  let n ← intArgument name args 0
  return .ofWord (Bits.wrap w n.toInt).value

/-- The functions on words of a width, by name without the width. -/
def wordFunctions (w : Nat) : List (String × NamedFn) :=
  [("wrap", wrapInt w),
    ("add", onWords w fun a b => .ofWord (Bits.add a b).value),
    ("sub", onWords w fun a b => .ofWord (Bits.sub a b).value),
    ("carry", onWords w fun a b => .ofNat (Bits.add a b).overflow.toNat),
    ("borrow", onWords w fun a b => .ofNat (Bits.sub a b).overflow.toNat),
    ("shl", onWordCount w Bits.shiftLeft),
    ("shr", onWordCount w Bits.shiftRight),
    ("rotl", onWordCount w Bits.rotateLeft),
    ("rotr", onWordCount w Bits.rotateRight),
    ("bitrev", onWord w fun a => .ofWord (Bits.reverse a)),
    ("bitscanf", onWord w fun a => .ofNat (Bits.lowest a)),
    ("bitscanr", onWord w fun a => .ofNat (Bits.highest a))]

/-- The functions on words of a width, with the width behind the name. -/
def wordLibrary {σ : Type} (w : Nat) : Library σ :=
  Library.ofList <| (wordFunctions w).map fun (name, f) =>
    let name := name ++ toString w
    (name, .function (HostFunction.ofPure (f name)))

/-- The functions on words of eight and of sixteen bits. -/
def arithmeticLibrary {σ : Type} : Library σ :=
  (wordLibrary 8).extend (wordLibrary 16)

end Isa16
