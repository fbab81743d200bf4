import Isa16.Program.Scan
import Isa16.Program.Tree

/-!
# Reading statements from tokens

* `Cursor`: the tokens that are left, and how many levels of nesting are held.
* `Reader`: a step of reading; it may stop with a fault of the text.
* `Reader.deepen`, `Reader.release`: a construct that makes the tree deeper holds a level while it
  is read; no more than `maxNesting` levels may be held.
* `Reader.statements`, `Reader.expression` and what lies between: one routine for each form of the
  grammar. They recurse on an allowance that `readingAllowance` makes large enough.
* `parse`: the statements of a text.
-/

namespace Isa16

/-- The greatest number of levels that may be held at once. -/
def maxNesting : Nat := 64

/-- A place between tokens. -/
structure Cursor where
  tokens : List Token
  ending : Ending
  /-- The levels of nesting held. -/
  depth : Nat
  deriving DecidableEq

/-- The place in front of the first token. -/
def Scan.cursor (s : Scan) : Cursor :=
  ⟨s.tokens, s.ending, 0⟩

/-- How reading stops short: at a fault of the text, or because the allowance ran out. -/
inductive Halt
  | fault (e : SyntaxError)
  | exhausted
  deriving DecidableEq

/-- A step of reading. -/
abbrev Reader := StateT Cursor (Except Halt)

namespace Reader

/-! ## Single tokens -/

/-- Stops with a fault at a place. -/
def fail {α : Type} (position : Position) (fault : ParseFault) : Reader α :=
  throw (.fault (.grammatical position fault))

/-- The next lexeme, `none` at the end of the text, and its place. -/
def peek : Reader (Option Lexeme × Position) := do
  let cursor ← get
  match cursor.tokens, cursor.ending with
  | t :: _, _ => return (some t.lexeme, t.position)
  | [], .complete position => return (none, position)
  | [], .fault position fault => throw (.fault (.lexical position fault))

/-- Goes past the next token. -/
def advance : Reader Unit :=
  modify fun cursor => { cursor with tokens := cursor.tokens.tail }

/-- Goes past the next token if it is the symbol, and says whether it was. -/
def accept (s : Symbol) : Reader Bool := do
  let (found, _) ← peek
  if found = some (.symbol s) then do
    advance
    return true
  else return false

/-- Goes past the next token, which has to be the symbol. -/
def expect (s : Symbol) (what : Expectation) : Reader Unit := do
  let (found, position) ← peek
  if found = some (.symbol s) then advance else fail position (.expected what found)

/-- Goes past the next token, which has to be a property's name. -/
def propertyName : Reader String := do
  let (found, position) ← peek
  match found with
  | some (.identifier name) => do
    advance
    return name
  | _ => fail position (.expected .propertyName found)

/-- The next token is the word. -/
def atWord (word : String) : Reader Bool := do
  let (found, _) ← peek
  return found = some (.identifier word)

/-- The next token is the closing symbol, or the text ends if there is none. -/
def atClosing (closing : Option Symbol) : Reader Bool := do
  let (found, _) ← peek
  return found = closing.map .symbol

/-- Goes past an operator of the level between operands. -/
def infixOperator? (level : Nat) : Reader (Option BinaryOp) := do
  let (found, _) ← peek
  match found with
  | some (.symbol s) =>
    match BinaryOp.ofSymbol? s with
    | some op =>
      if op.level = level then do
        advance
        return some op
      else return none
    | none => return none
  | _ => return none

/-- Goes past an operator in front of an operand. -/
def unaryOperator? : Reader (Option UnaryOp) := do
  let (found, _) ← peek
  match found with
  | some (.symbol s) =>
    match UnaryOp.ofSymbol? s with
    | some op => do
      advance
      return some op
    | none => return none
  | _ => return none

/-! ## Nesting -/

/-- Holds one more level. -/
def deepen : Reader Unit := do
  let cursor ← get
  if cursor.depth < maxNesting then set { cursor with depth := cursor.depth + 1 }
  else do
    let (_, position) ← peek
    fail position .nestedTooDeeply

/-- Gives back levels. -/
def release (levels : Nat) : Reader Unit :=
  modify fun cursor => { cursor with depth := cursor.depth - levels }

/-! ## Statements and expressions -/

/-- A statement other than a conditional is followed by a separator or by the end of its block. -/
def separator (closing : Option Symbol) (s : Stmt) : Reader Unit :=
  if s.isConditional then return ()
  else do
    if ← atClosing closing then return () else expect .semicolon .separator

mutual

/-- Statements up to the closing symbol, which is left. -/
def statements : Nat → Option Symbol → Reader (List Stmt)
  | 0, _ => throw .exhausted
  | n + 1, closing => do
    if ← atClosing closing then return []
    else if ← accept .semicolon then statements n closing
    else do
      let s ← statement n
      separator closing s
      let rest ← statements n closing
      return s :: rest

/-- A statement. -/
def statement : Nat → Reader Stmt
  | 0 => throw .exhausted
  | n + 1 => do
    deepen
    let s ← statementBody n
    release 1
    return s

/-- A statement whose level is held. -/
def statementBody : Nat → Reader Stmt
  | 0 => throw .exhausted
  | n + 1 => do
    if ← atWord "if" then conditionalStatement n
    else do
      let e ← expression n
      if ← accept .equals then do
        let value ← expression n
        return .assign e value
      else return .expr e

/-- A conditional statement, from its first word on. -/
def conditionalStatement : Nat → Reader Stmt
  | 0 => throw .exhausted
  | n + 1 => do
    advance
    expect .leftParen .conditionOpen
    let condition ← expression n
    expect .rightParen .conditionClose
    let whenTrue ← branch n
    if ← atWord "else" then do
      advance
      let whenFalse ← branch n
      return .ite condition whenTrue whenFalse
    else return .ite condition whenTrue []

/-- A block in braces, or a single statement. -/
def branch : Nat → Reader (List Stmt)
  | 0 => throw .exhausted
  | n + 1 => do
    if ← accept .leftBrace then do
      let body ← statements n (some .rightBrace)
      expect .rightBrace .blockClose
      return body
    else do
      let s ← statement n
      return [s]

/-- An expression. -/
def expression : Nat → Reader Expr
  | 0 => throw .exhausted
  | n + 1 => do
    deepen
    let condition ← binary n 0
    if ← accept .question then do
      let whenTrue ← expression n
      expect .colon .alternative
      let whenFalse ← expression n
      release 1
      return .conditional condition whenTrue whenFalse
    else do
      release 1
      return condition

/-- Operands of a level joined by its operators, which bind to the left. -/
def binary : Nat → Nat → Reader Expr
  | 0, _ => throw .exhausted
  | n + 1, level =>
    if level < BinaryOp.levels then do
      let first ← binary n (level + 1)
      binaryChain n level first 0
    else unary n

/-- The operators of a level behind a left operand; each one holds a level up to the end of the
chain, of which `held` are held already. -/
def binaryChain : Nat → Nat → Expr → Nat → Reader Expr
  | 0, _, _, _ => throw .exhausted
  | n + 1, level, lhs, held => do
    match ← infixOperator? level with
    | some op =>
      deepen
      let rhs ← binary n (level + 1)
      binaryChain n level (.binary op lhs rhs) (held + 1)
    | none =>
      release held
      return lhs

/-- Operators in front of an operand. -/
def unary : Nat → Reader Expr
  | 0 => throw .exhausted
  | n + 1 => do
    match ← unaryOperator? with
    | some op =>
      deepen
      let operand ← unary n
      release 1
      return .ofUnary op operand
    | none => application n

/-- A primary expression with the calls and properties behind it. -/
def application : Nat → Reader Expr
  | 0 => throw .exhausted
  | n + 1 => do
    let e ← primary n
    applicationChain n e 0

/-- The calls and properties behind an expression; each one holds a level up to the end. -/
def applicationChain : Nat → Expr → Nat → Reader Expr
  | 0, _, _ => throw .exhausted
  | n + 1, e, held => do
    if ← accept .leftParen then do
      deepen
      let args ← arguments n
      applicationChain n (.call e args) (held + 1)
    else do
      match ← property? n e with
      | some e' =>
        deepen
        applicationChain n e' (held + 1)
      | none =>
        release held
        return e

/-- A property of an object, if one follows. -/
def property? : Nat → Expr → Reader (Option Expr)
  | 0, _ => throw .exhausted
  | n + 1, object => do
    if ← accept .dot then do
      let name ← propertyName
      return some (.member object name)
    else if ← accept .leftBracket then do
      let key ← expression n
      expect .rightBracket .indexClose
      return some (.index object key)
    else return none

/-- A literal, a name, an expression in parentheses or a construction. -/
def primary : Nat → Reader Expr
  | 0 => throw .exhausted
  | n + 1 => do
    let (found, position) ← peek
    match found with
    | some (.symbol .leftParen) =>
      advance
      let e ← expression n
      expect .rightParen .groupClose
      return e
    | some (.number digits) =>
      match numeralValue? digits.toList with
      | some value =>
        advance
        return .int value
      | none => fail position (.numberTooLarge digits)
    | some (.text contents) =>
      advance
      return .text contents
    | some (.identifier name) =>
      if name = "true" then do
        advance
        return .bool true
      else if name = "false" then do
        advance
        return .bool false
      else if name = "new" then do
        advance
        construction n
      else if name = "if" ∨ name = "else" then fail position (.keyword name)
      else do
        advance
        return .ident name
    | _ => fail position (.noExpression found)

/-- A construction behind its first word. -/
def construction : Nat → Reader Expr
  | 0 => throw .exhausted
  | n + 1 => do
    deepen
    let callee ← primary n
    constructionChain n callee 1

/-- The properties of a constructor, then its arguments. -/
def constructionChain : Nat → Expr → Nat → Reader Expr
  | 0, _, _ => throw .exhausted
  | n + 1, callee, held => do
    match ← property? n callee with
    | some callee' =>
      deepen
      constructionChain n callee' (held + 1)
    | none =>
      expect .leftParen .constructorOpen
      let args ← arguments n
      release held
      return .construct callee args

/-- Arguments behind their opening parenthesis, through the closing one. -/
def arguments : Nat → Reader (List Expr)
  | 0 => throw .exhausted
  | n + 1 => do
    if ← accept .rightParen then return [] else argumentsAfter n

/-- At least one argument, then the closing parenthesis. -/
def argumentsAfter : Nat → Reader (List Expr)
  | 0 => throw .exhausted
  | n + 1 => do
    let arg ← expression n
    if ← accept .comma then do
      let rest ← argumentsAfter n
      return arg :: rest
    else do
      expect .rightParen .argumentsClose
      return [arg]

end

end Reader

/-- An allowance that no text of so many tokens uses up. -/
def readingAllowance (tokens : Nat) : Nat :=
  20 * (tokens + 1)

/-- The statements of a text. Running out of the allowance, which does not happen, would count as
nesting. -/
def parse (source : String) : Except SyntaxError (List Stmt) :=
  let s := scan source
  match (Reader.statements (readingAllowance s.tokens.length) none).run s.cursor with
  | .ok (statements, _) => .ok statements
  | .error (.fault e) => .error e
  | .error .exhausted => .error (.grammatical .start .nestedTooDeeply)

end Isa16
