/-!
# Numerals

* `Radix`: the bases in which a number may be written, each but the decimal with a mark such as
  `0x` in front.
* `splitMark`: the radix of a numeral, its mark and what follows.
* `numeralValue?`: the integer of a numeral. A decimal one has to be a 64-bit integer; a marked
  one may spell any 64-bit pattern.
-/

namespace Isa16

/-- The base of a numeral. -/
inductive Radix
  | binary
  | octal
  | decimal
  | hexadecimal
  deriving DecidableEq

/-- A hexadecimal digit. -/
def isHexDigit (c : Char) : Bool :=
  c.isDigit || ('a' ≤ c && c ≤ 'f') || ('A' ≤ c && c ≤ 'F')

/-- The value of a hexadecimal digit. -/
def hexDigitValue (c : Char) : Nat :=
  if c.isDigit then c.toNat - '0'.toNat
  else if 'a' ≤ c then c.toNat - 'a'.toNat + 10
  else c.toNat - 'A'.toNat + 10

/-- The number that digits of a base spell. -/
def digitsValue (base : Nat) (digits : List Char) : Nat :=
  digits.foldl (fun n c => base * n + hexDigitValue c) 0

namespace Radix

/-- The base as a number. -/
def base : Radix → Nat
  | binary => 2
  | octal => 8
  | decimal => 10
  | hexadecimal => 16

/-- A digit of the base. -/
def isDigit (r : Radix) (c : Char) : Bool :=
  isHexDigit c && hexDigitValue c < r.base

/-- A digit of the base, or an underscore between digits. -/
def isPart (r : Radix) (c : Char) : Bool :=
  c = '_' || r.isDigit c

/-- The radix that a letter behind a zero marks. -/
def ofLetter? : Char → Option Radix
  | 'x' | 'X' => some hexadecimal
  | 'b' | 'B' => some binary
  | 'o' | 'O' => some octal
  | _ => none

end Radix

/-- The radix that the front of a text marks, the mark, and what follows. -/
def splitMark : List Char → Radix × List Char × List Char
  | '0' :: letter :: cs =>
    match Radix.ofLetter? letter with
    | some radix => (radix, ['0', letter], cs)
    | none => (.decimal, [], '0' :: letter :: cs)
  | cs => (.decimal, [], cs)

theorem splitMark_append (cs : List Char) : (splitMark cs).2.1 ++ (splitMark cs).2.2 = cs := by
  unfold splitMark
  split
  · split <;> rfl
  · rfl

/-- The integer that a numeral denotes, if there is one. Its radix is found once the underscores are
dropped. -/
def numeralValue? (numeral : List Char) : Option Int64 :=
  let (radix, _, digits) := splitMark (numeral.filter (· ≠ '_'))
  let value := digitsValue radix.base digits
  let bound := if radix = .decimal then 0x8000000000000000 else 0x10000000000000000
  if !digits.isEmpty && digits.all radix.isDigit && value < bound then some (Int64.ofNat value)
  else none

end Isa16
