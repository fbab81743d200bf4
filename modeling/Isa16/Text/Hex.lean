/-!
# Hexadecimal numerals

* `Hex.lower`, `Hex.upper`: the digits of a number in base sixteen, with zeros in front up to a
  least count of digits.
-/

namespace Isa16.Hex

/-- Zeros in front of `digits`, up to `count` digits in all. -/
def padded (count : Nat) (digits : List Char) : List Char :=
  List.replicate (count - digits.length) '0' ++ digits

/-- At least `count` digits of `n`, letters in lower case. -/
def lower (count n : Nat) : String :=
  String.ofList (padded count (Nat.toDigits 16 n))

/-- At least `count` digits of `n`, letters in upper case. -/
def upper (count n : Nat) : String :=
  String.ofList (padded count ((Nat.toDigits 16 n).map Char.toUpper))

end Isa16.Hex
