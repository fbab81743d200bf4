import Isa16.Program.Token

/-!
# Faults of a program text

* `LexFault`: what keeps a text from being cut into tokens.
* `ParseFault`: what keeps tokens from being statements.
* `SyntaxError`: either, with its place; `SyntaxError.message` is the wording.
-/

namespace Isa16

/-- Why no token can be read. -/
inductive LexFault
  | unexpectedCharacter (c : Char)
  | missingDigits
  | nameAfterNumber
  | unterminatedText
  | unterminatedEscape
  | unbracedEscape
  | malformedEscape
  | invalidCodePoint (digits : String)
  deriving DecidableEq

/-- The wording of a fault in the characters. -/
def LexFault.message : LexFault → String
  | unexpectedCharacter c => s!"unexpected character '{c}'"
  | missingDigits => "numeric literal requires digits after prefix"
  | nameAfterNumber => "identifier immediately follows numeric literal"
  | unterminatedText => "unterminated string literal"
  | unterminatedEscape => "unterminated escape sequence"
  | unbracedEscape => "unicode escape must use '\\u\x7b...\x7d'"
  | malformedEscape => "malformed unicode escape"
  | invalidCodePoint digits => s!"invalid code point '{digits}'"

/-- What the grammar asks for at one place. -/
inductive Expectation
  | separator
  | conditionOpen
  | conditionClose
  | blockClose
  | alternative
  | propertyName
  | indexClose
  | groupClose
  | constructorOpen
  | argumentsClose
  deriving DecidableEq

/-- The wording of an expectation. -/
def Expectation.text : Expectation → String
  | separator => "';' between statements"
  | conditionOpen => "'(' after 'if'"
  | conditionClose => "')' to close condition"
  | blockClose => "'\x7d' to close block"
  | alternative => "':' in conditional expression"
  | propertyName => "property name after '.'"
  | indexClose => "']' to close index"
  | groupClose => "')' to close expression"
  | constructorOpen => "'(' after constructor"
  | argumentsClose => "')' to close argument list"

/-- Why tokens are no statement. `none` stands for the end of the text. -/
inductive ParseFault
  | expected (what : Expectation) (found : Option Lexeme)
  | noExpression (found : Option Lexeme)
  | keyword (name : String)
  | numberTooLarge (digits : String)
  | nestedTooDeeply
  deriving DecidableEq

/-- The wording of a fault in the tokens. -/
def ParseFault.message : ParseFault → String
  | expected what (some found) => s!"expected {what.text}, found '{found.shown}'"
  | expected what none => s!"expected {what.text}, found end of input"
  | noExpression (some found) => s!"unexpected token '{found.shown}' in expression"
  | noExpression none => "unexpected token '' in expression"
  | keyword name => s!"'{name}' is not valid in an expression"
  | numberTooLarge digits => s!"invalid numeric literal '{digits}'"
  | nestedTooDeeply => "expression nested too deeply"

/-- Why a text is no program. -/
inductive SyntaxError
  | lexical (position : Position) (fault : LexFault)
  | grammatical (position : Position) (fault : ParseFault)
  deriving DecidableEq

/-- The wording of a fault with its place. -/
def SyntaxError.message : SyntaxError → String
  | lexical p fault => s!"lexer error at {p.line}:{p.column}: {fault.message}"
  | grammatical p fault => s!"parser error at {p.line}:{p.column}: {fault.message}"

end Isa16
