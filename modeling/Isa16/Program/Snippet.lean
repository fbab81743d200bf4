import Isa16.Program.Name
import Isa16.Text.Quoted

/-!
# Writing programs

Texts of expressions and statements, made to be put together. A property whose name is no
identifier is written between brackets, so any name can be used.

* `Snippet.path`, `Snippet.element`, `Snippet.application`, `Snippet.construction`,
  `Snippet.literal`: expressions.
* `Snippet.assignment`: an assignment.
* `Snippet.stringLiteral`: a string literal of any text.
-/

namespace Isa16

/-- A literal value. -/
inductive Literal
  | int (n : Int64)
  | bool (b : Bool)
  | text (s : String)
  deriving DecidableEq

namespace Snippet

/-- A control character, of category `Cc`. -/
def isControl (c : Char) : Bool :=
  c.toNat < 0x20 || (0x7f ≤ c.toNat && c.toNat < 0xa0)

/-- How a character of a string literal is written. -/
def quotedChar (c : Char) : List Char :=
  match escapeLetter? c with
  | some letter => ['\\', letter]
  | none => if isControl c then codePointEscape c else [c]

/-- A string literal of a text. -/
def stringLiteral : String → String :=
  quotedWith quotedChar

/-- Decimal digits without a zero in front, for a number that is an index. -/
def isIndexText (s : String) : Bool :=
  match s.toList with
  | [] => false
  | ['0'] => true
  | c :: cs => c ≠ '0' && (c :: cs).all Char.isDigit &&
      Nat.ofDigitChars 10 (c :: cs) 0 < 0x8000000000000000

/-- A property as it is written behind an object. -/
def property (name : String) : String :=
  if isIndexText name then s!"[{name}]"
  else if isIdentifier name && !isKeyword name then s!".{name}"
  else s!"[{stringLiteral name}]"

/-- A path of properties from an object. -/
def path (base : String) (properties : List String) : String :=
  properties.foldl (fun text name => text ++ property name) base

/-- A property by a computed key. -/
def element (base index : String) : String :=
  s!"{base}[{index}]"

/-- An assignment. -/
def assignment (target value : String) : String :=
  s!"{target} = {value}"

/-- The library entry of a name. -/
def entry (name : String) : String :=
  s!"${name}"

/-- Arguments in parentheses. -/
def arguments (args : List String) : String :=
  "(" ++ ", ".intercalate args ++ ")"

/-- A call. -/
def application (callee : String) (args : List String) : String :=
  callee ++ arguments args

/-- A construction. -/
def construction (callee : String) (args : List String) : String :=
  "new " ++ callee ++ arguments args

/-- A literal. A negative number stands in parentheses, the least one as a difference. -/
def literal : Literal → String
  | .int n =>
    if n = Int64.minValue then "(-9223372036854775807 - 1)"
    else if n < 0 then s!"({n.toInt})"
    else toString n.toInt
  | .bool b => toString b
  | .text s => stringLiteral s

end Snippet

end Isa16
