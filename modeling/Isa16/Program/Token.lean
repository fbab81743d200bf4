/-!
# Tokens of the program language

* `Position`: line and column of a character, both counted from one.
* `Symbol`: operators and punctuation, with `Symbol.text` and the readers `Symbol.ofPair?`,
  `Symbol.ofChar?`.
* `Lexeme`, `Token`: what was read, and where it starts.
-/

namespace Isa16

/-- A place in a text: line and column, counted from one, the column in characters. -/
structure Position where
  line : Nat
  column : Nat
  deriving DecidableEq

namespace Position

/-- The place of the first character. -/
def start : Position :=
  ⟨1, 1⟩

/-- The place behind a character. -/
def next (p : Position) (c : Char) : Position :=
  if c = '\n' then ⟨p.line + 1, 1⟩ else ⟨p.line, p.column + 1⟩

/-- The place behind a run of characters. -/
def after (p : Position) (cs : List Char) : Position :=
  cs.foldl next p

@[simp] theorem after_nil (p : Position) : p.after [] = p := rfl

end Position

/-- Operators and punctuation. -/
inductive Symbol
  | leftParen
  | rightParen
  | leftBrace
  | rightBrace
  | leftBracket
  | rightBracket
  | dot
  | comma
  | semicolon
  | question
  | colon
  | equals
  | doubleEquals
  | bangEquals
  | less
  | lessEquals
  | greater
  | greaterEquals
  | shiftLeft
  | shiftRight
  | plus
  | dash
  | star
  | slash
  | percent
  | ampersand
  | doubleAmpersand
  | pipe
  | doublePipe
  | caret
  | tilde
  | bang
  deriving DecidableEq

namespace Symbol

/-- The characters of a symbol. -/
def chars : Symbol → List Char
  | leftParen => ['(']
  | rightParen => [')']
  | leftBrace => ['{']
  | rightBrace => ['}']
  | leftBracket => ['[']
  | rightBracket => [']']
  | dot => ['.']
  | comma => [',']
  | semicolon => [';']
  | question => ['?']
  | colon => [':']
  | equals => ['=']
  | doubleEquals => ['=', '=']
  | bangEquals => ['!', '=']
  | less => ['<']
  | lessEquals => ['<', '=']
  | greater => ['>']
  | greaterEquals => ['>', '=']
  | shiftLeft => ['<', '<']
  | shiftRight => ['>', '>']
  | plus => ['+']
  | dash => ['-']
  | star => ['*']
  | slash => ['/']
  | percent => ['%']
  | ampersand => ['&']
  | doubleAmpersand => ['&', '&']
  | pipe => ['|']
  | doublePipe => ['|', '|']
  | caret => ['^']
  | tilde => ['~']
  | bang => ['!']

/-- A symbol as it is written. -/
def text (s : Symbol) : String :=
  String.ofList s.chars

/-- The symbol of two characters that they form together. -/
def ofPair? : Char → Char → Option Symbol
  | '=', '=' => some doubleEquals
  | '!', '=' => some bangEquals
  | '<', '=' => some lessEquals
  | '>', '=' => some greaterEquals
  | '<', '<' => some shiftLeft
  | '>', '>' => some shiftRight
  | '&', '&' => some doubleAmpersand
  | '|', '|' => some doublePipe
  | _, _ => none

/-- The symbol that a character forms alone. -/
def ofChar? : Char → Option Symbol
  | '(' => some leftParen
  | ')' => some rightParen
  | '{' => some leftBrace
  | '}' => some rightBrace
  | '[' => some leftBracket
  | ']' => some rightBracket
  | '.' => some dot
  | ',' => some comma
  | ';' => some semicolon
  | '?' => some question
  | ':' => some colon
  | '=' => some equals
  | '<' => some less
  | '>' => some greater
  | '+' => some plus
  | '-' => some dash
  | '*' => some star
  | '/' => some slash
  | '%' => some percent
  | '&' => some ampersand
  | '|' => some pipe
  | '^' => some caret
  | '~' => some tilde
  | '!' => some bang
  | _ => none

theorem chars_of_ofPair? {c d : Char} {s : Symbol} (h : ofPair? c d = some s) :
    s.chars = [c, d] := by
  unfold ofPair? at h
  split at h <;> cases h <;> rfl

theorem chars_of_ofChar? {c : Char} {s : Symbol} (h : ofChar? c = some s) : s.chars = [c] := by
  unfold ofChar? at h
  split at h <;> cases h <;> rfl

end Symbol

/-- What a token reads as. -/
inductive Lexeme
  | identifier (name : String)
  /-- A number in the form in which it was written. -/
  | number (digits : String)
  /-- A string literal, by its contents. -/
  | text (contents : String)
  | symbol (s : Symbol)
  deriving DecidableEq

/-- The lexeme as messages show it: the contents of a string, all else as written. -/
def Lexeme.shown : Lexeme → String
  | identifier name => name
  | number digits => digits
  | text contents => contents
  | symbol s => s.text

/-- A lexeme and the place of its first character. -/
structure Token where
  lexeme : Lexeme
  position : Position
  deriving DecidableEq

end Isa16
