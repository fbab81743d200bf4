import Isa16.Decoding.Instruction

/-!
# Listings

* `ListingRow`: an address, the word found there and its assembly text.
* `InstructionSet.listing`: the rows of a byte stream, two bytes a word, high byte first.
-/

namespace Isa16

/-- One line of a listing. -/
structure ListingRow where
  address : Nat
  word : Word
  mnemonic : String
  operands : List String
  deriving DecidableEq

namespace ListingRow

/-- The row of a word; one that is no instruction is shown as `unknown`. -/
def ofWord (s : InstructionSet) (address : Nat) (word : Word) : ListingRow :=
  match s.decode? word with
  | some i => ⟨address, word, i.operation.mnemonic, i.operandTexts⟩
  | none => ⟨address, word, "unknown", [s!"0x{Hex.upper 4 word.toNat}"]⟩

/-- The text with blanks behind it, up to `count` characters. -/
def padRight (count : Nat) (text : String) : String :=
  text ++ String.ofList (List.replicate (count - text.length) ' ')

/-- The row as printed. -/
def text (row : ListingRow) : String :=
  s!"0x{Hex.upper 4 row.address}: {Hex.upper 4 row.word.toNat}  " ++
    s!"{padRight 5 row.mnemonic} " ++ ", ".intercalate row.operands

end ListingRow

/-- The words of a byte stream, high byte first; an odd last byte is left out. -/
def wordsOfBytes : List Byte → List Word
  | high :: low :: rest => (high ++ low : BitVec (8 + 8)) :: wordsOfBytes rest
  | _ => []

/-- The rows of words that stand one behind the other from an address on. -/
def InstructionSet.rowsFrom (s : InstructionSet) (address : Nat) : List Word → List ListingRow
  | [] => []
  | word :: rest => ListingRow.ofWord s address word :: s.rowsFrom (address + 2) rest

/-- The listing of a byte stream that starts at an address. -/
def InstructionSet.listing (s : InstructionSet) (bytes : List Byte) (base : Nat) :
    List ListingRow :=
  s.rowsFrom base (wordsOfBytes bytes)

end Isa16
