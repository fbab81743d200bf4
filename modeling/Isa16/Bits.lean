/-!
# Words of a fixed width

Machine words are bit vectors. An instruction is a `Word` of sixteen bits.

* `Bits.fits`, `Bits.wrap`: whether an integer is a word of the width, and its residue with a
  flag that says whether it was not.
* `Bits.add`, `Bits.sub`: sums and differences with the flag.
* `Bits.lowest`, `Bits.highest`: the extreme set bits; both are `0` for the zero word.
* `Bits.shiftLeft`, `Bits.shiftRight`, `Bits.rotateLeft`, `Bits.rotateRight`.
* `Bits.reverse`: the bits in the opposite order, by the stages `Bits.swapStages`.
-/

namespace Isa16

/-- An instruction word. -/
abbrev Word := BitVec 16

/-- A byte of a program image. -/
abbrev Byte := BitVec 8

instance : Std.TransOrd Word :=
  inferInstanceAs (Std.TransOrd (BitVec 16))

/-- A word together with whether reducing to the width changed the number. -/
structure Wrapped (w : Nat) where
  value : BitVec w
  overflow : Bool
  deriving DecidableEq

namespace Bits

variable {w : Nat}

/-- The least number of a word. -/
def least (_ : Nat) : Nat := 0

/-- The greatest number of a word of width `w`. -/
def greatest (w : Nat) : Nat := Nat.pow 2 w - 1

/-- The integer is a word of width `w` as it stands. -/
def fits (w : Nat) (n : Int) : Bool :=
  0 ≤ n && n < Nat.pow 2 w

/-- The residue of an integer, with a flag when the integer did not fit. -/
def wrap (w : Nat) (n : Int) : Wrapped w :=
  ⟨BitVec.ofInt w n, !fits w n⟩

/-- The sum; the flag is the carry. -/
def add (a b : BitVec w) : Wrapped w :=
  wrap w (a.toNat + b.toNat)

/-- The difference; the flag is the borrow. -/
def sub (a b : BitVec w) : Wrapped w :=
  wrap w (a.toNat - b.toNat)

/-- The position of the lowest set bit, `0` for the zero word. -/
def lowest (a : BitVec w) : Nat :=
  ((List.range w).find? a.getLsbD).getD 0

/-- The position of the highest set bit, `0` for the zero word. -/
def highest (a : BitVec w) : Nat :=
  a.toNat.log2

/-- Shifts up; bits that leave the word are lost. -/
def shiftLeft (a : BitVec w) (n : Nat) : BitVec w :=
  if n < w then a <<< n else 0

/-- Shifts down; bits that leave the word are lost. -/
def shiftRight (a : BitVec w) (n : Nat) : BitVec w :=
  if n < w then a >>> n else 0

/-- Rotates up, by any count. -/
def rotateLeft (a : BitVec w) (n : Nat) : BitVec w :=
  a.rotateLeft (n % w)

/-- Rotates down, by any count. -/
def rotateRight (a : BitVec w) (n : Nat) : BitVec w :=
  a.rotateRight (n % w)

/-- A stage of reversing: groups of so many bits, and which bits are in the lower group of a
pair. -/
structure SwapStage where
  shift : Nat
  lower : BitVec 64

/-- The stages, each with groups twice as large as the one before. -/
def swapStages : List SwapStage :=
  [⟨1, 0x5555555555555555⟩, ⟨2, 0x3333333333333333⟩, ⟨4, 0x0f0f0f0f0f0f0f0f⟩,
    ⟨8, 0x00ff00ff00ff00ff⟩, ⟨16, 0x0000ffff0000ffff⟩, ⟨32, 0x00000000ffffffff⟩]

/-- The two groups of each pair change places. -/
def swapGroups (stage : SwapStage) (a : BitVec w) : BitVec w :=
  let lower := stage.lower.setWidth w
  ((a >>> stage.shift) &&& lower) ||| ((a &&& lower) <<< stage.shift)

/-- The bits of a word of 8, 16, 32 or 64 bits in the opposite order: pairs of larger and larger
groups change places. -/
def reverse (a : BitVec w) : BitVec w :=
  (swapStages.takeWhile (·.shift < w)).foldl (fun a stage => swapGroups stage a) a

end Bits

end Isa16
