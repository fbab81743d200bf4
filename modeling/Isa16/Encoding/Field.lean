import Isa16.Encoding.Error

/-!
# Fields of an instruction word

* `Field`: a set of bit positions, with or without gaps, given by its mask.
* `Field.get`, `Field.trySet`: read the field right-aligned, and write it.
* `Field.overlaps`: whether two fields share a bit.
-/

namespace Isa16

/-- A set of bit positions of an instruction word. -/
structure Field where
  mask : Word
  deriving DecidableEq

namespace Field

/-- The field of a mask given as an integer. -/
def ofInt64 (mask : Int64) : Except EncodingError Field :=
  if Bits.fits 16 mask.toInt then .ok ⟨BitVec.ofInt 16 mask.toInt⟩ else .error (.wideMask mask)

/-- The lowest position, `0` for the empty field. -/
def lowest (f : Field) : Nat :=
  Bits.lowest f.mask

/-- The highest position, `0` for the empty field. -/
def highest (f : Field) : Nat :=
  Bits.highest f.mask

/-- The field has no position. -/
def isEmpty (f : Field) : Bool :=
  f.mask = 0

/-- The span from the lowest to the highest position, gaps included. -/
def width (f : Field) : Nat :=
  if f.isEmpty then 0 else f.highest - f.lowest + 1

/-- The bits that a right-aligned value of the field may set. -/
def valueMask (f : Field) : Word :=
  f.mask >>> f.lowest

/-- The field's bits of `word`, right-aligned. -/
def get (f : Field) (word : Word) : Word :=
  (word &&& f.mask) >>> f.lowest

/-- Writes a right-aligned value over the field; bits outside `valueMask` are dropped. -/
def set (f : Field) (value word : Word) : Word :=
  (word &&& ~~~f.mask) ||| ((value &&& f.valueMask) <<< f.lowest)

/-- Writes a right-aligned value over the field, if it fits. -/
def trySet (f : Field) (value word : Word) : Except EncodingError Word :=
  if value &&& ~~~f.valueMask = 0 then .ok (f.set value word)
  else .error (.wideValue value f.mask)

/-- The field of every position that one of `fields` has. -/
def union (fields : List Field) : Field :=
  ⟨fields.foldl (fun bits f => bits ||| f.mask) 0⟩

/-- The fields share a position. -/
def overlaps (f g : Field) : Bool :=
  f.mask &&& g.mask ≠ 0

/-- The mask in hexadecimal. -/
def text (f : Field) : String :=
  s!"0x{Hex.lower 4 f.mask.toNat}"

end Field

end Isa16
