import Isa16.Text.Hex
import Isa16.Text.Printable

/-!
# Quoted text

* `codePointEscape`: a character by its number, `\u{…}`.
* `quotedWith`: text between double quotes, with chosen characters written as escapes.
* `inspected`: the form in which texts are shown to a reader; nothing invisible is left in it.
-/

namespace Isa16

/-- A character by its code point in lower-case hexadecimal. -/
def codePointEscape (c : Char) : List Char :=
  '\\' :: 'u' :: '{' :: Nat.toDigits 16 c.toNat ++ ['}']

/-- Text between double quotes, each character replaced by what `escape` gives for it. -/
def quotedWith (escape : Char → List Char) (text : String) : String :=
  String.ofList ('"' :: text.toList.flatMap escape ++ ['"'])

/-- The letter behind the backslash, for the characters that have one in every quoted form. -/
def escapeLetter? : Char → Option Char
  | '"' => some '"'
  | '\\' => some '\\'
  | '\n' => some 'n'
  | '\r' => some 'r'
  | '\t' => some 't'
  | _ => none

/-- How a character of a shown text is written. -/
def inspectedChar (c : Char) : List Char :=
  match escapeLetter? c with
  | some letter => ['\\', letter]
  | none =>
    if c = '\x00' then ['\\', '0']
    else if isPrintable c then [c]
    else codePointEscape c

/-- Text as shown to a reader. -/
def inspected : String → String :=
  quotedWith inspectedChar

end Isa16
