import Isa16.Proofs.Program.Steps

/-!
# The routines of reading

* `Production`: a routine of reading with its arguments. `Production.read`: the routine.
* `Production.held`, `Production.cost`, `Production.least`: the levels that a routine is to give
  back, the allowance that it needs until a token is taken, and the tokens that it takes at least.
* `Production.body`, `Production.read_succ`: what a routine does, in any monad that has the steps.
* `Phrase`: a routine with what it reads.
-/

namespace Isa16

@[grind =]
theorem BinaryOp.levels_eq : BinaryOp.levels = 10 :=
  rfl

/-- A routine of reading, with its arguments. -/
inductive Production
  | statements (closing : Option Symbol)
  | statement
  | statementBody
  | conditionalStatement
  | branch
  | expression
  | binary (level : Nat)
  | binaryChain (level : Nat) (lhs : Expr) (held : Nat)
  | unary
  | application
  | applicationChain (head : Expr) (held : Nat)
  | property (object : Expr)
  | primary
  | construction
  | constructionChain (callee : Expr) (held : Nat)
  | arguments
  | argumentsAfter

namespace Production

/-- What a routine reads. -/
abbrev Result : Production → Type
  | statements _ | branch => List Stmt
  | statement | statementBody | conditionalStatement => Stmt
  | property _ => Option Expr
  | arguments | argumentsAfter => List Expr
  | expression | binary _ | binaryChain .. | unary | application | applicationChain .. | primary
  | construction | constructionChain .. => Expr

/-- The levels that a routine is to give back besides its own. -/
@[simp, grind]
def held : Production → Nat
  | binaryChain _ _ held | applicationChain _ held | constructionChain _ held => held
  | statements _ | statement | statementBody | conditionalStatement | branch | expression
  | binary _ | unary | application | property _ | primary | construction | arguments
  | argumentsAfter => 0

/-- The allowance that a routine needs until a token is taken. -/
@[simp, grind]
def cost : Production → Nat
  | statements _ | branch => 19
  | statement | arguments => 18
  | statementBody | argumentsAfter => 17
  | expression => 16
  | binary level => 5 + (BinaryOp.levels - level)
  | unary => 4
  | application => 3
  | applicationChain .. | construction | constructionChain .. => 2
  | conditionalStatement | binaryChain .. | property _ | primary => 1

theorem cost_pos (p : Production) : 0 < p.cost := by
  cases p <;> simp

theorem cost_le (p : Production) : p.cost ≤ 19 := by
  cases p with
  | binary level =>
    simp only [cost, BinaryOp.levels]
    omega
  | _ => simp

/-- The tokens that a routine takes at least. -/
@[simp, grind]
def least : (p : Production) → p.Result → Nat
  | statements _, _ | binaryChain .., _ | applicationChain .., _ | property _, none => 0
  | statement, _ | statementBody, _ | conditionalStatement, _ | branch, _ | expression, _
  | binary _, _ | unary, _ | application, _ | property _, some _ | primary, _ | construction, _
  | constructionChain .., _ | arguments, _ | argumentsAfter, _ => 1

/-- The routine, with an allowance. -/
def read (n : Nat) : (p : Production) → Reader p.Result
  | statements closing => Reader.statements n closing
  | statement => Reader.statement n
  | statementBody => Reader.statementBody n
  | conditionalStatement => Reader.conditionalStatement n
  | branch => Reader.branch n
  | expression => Reader.expression n
  | binary level => Reader.binary n level
  | binaryChain level lhs held => Reader.binaryChain n level lhs held
  | unary => Reader.unary n
  | application => Reader.application n
  | applicationChain head held => Reader.applicationChain n head held
  | property object => Reader.property? n object
  | primary => Reader.primary n
  | construction => Reader.construction n
  | constructionChain callee held => Reader.constructionChain n callee held
  | arguments => Reader.arguments n
  | argumentsAfter => Reader.argumentsAfter n

/-- What the routines are made of, in some monad. -/
structure Steps (m : Type → Type) where
  /-- A step on tokens, or the claim of a level. -/
  step : {α : Type} → Reader α → m α
  /-- Gives back levels. -/
  release : Nat → m Unit
  /-- A routine. -/
  call : (p : Production) → m p.Result

open Reader in
/-- The steps of a routine. -/
def body {m : Type → Type} [Monad m] (o : Steps m) : (p : Production) → m p.Result
  | .statements closing => do
    if ← o.step (atClosing closing) then return []
    else if ← o.step (accept .semicolon) then o.call (.statements closing)
    else do
      let s ← o.call .statement
      o.step (separator closing s)
      let rest ← o.call (.statements closing)
      return s :: rest
  | .statement => do
    o.step deepen
    let s ← o.call .statementBody
    o.release 1
    return s
  | .statementBody => do
    if ← o.step (atWord "if") then o.call .conditionalStatement
    else do
      let e ← o.call .expression
      if ← o.step (accept .equals) then do
        let value ← o.call .expression
        return .assign e value
      else return .expr e
  | .conditionalStatement => do
    o.step advance
    o.step (expect .leftParen .conditionOpen)
    let condition ← o.call .expression
    o.step (expect .rightParen .conditionClose)
    let whenTrue ← o.call .branch
    if ← o.step (atWord "else") then do
      o.step advance
      let whenFalse ← o.call .branch
      return .ite condition whenTrue whenFalse
    else return .ite condition whenTrue []
  | .branch => do
    if ← o.step (accept .leftBrace) then do
      let body ← o.call (.statements (some .rightBrace))
      o.step (expect .rightBrace .blockClose)
      return body
    else do
      let s ← o.call .statement
      return [s]
  | .expression => do
    o.step deepen
    let condition ← o.call (.binary 0)
    if ← o.step (accept .question) then do
      let whenTrue ← o.call .expression
      o.step (expect .colon .alternative)
      let whenFalse ← o.call .expression
      o.release 1
      return .conditional condition whenTrue whenFalse
    else do
      o.release 1
      return condition
  | .binary level =>
    if level < BinaryOp.levels then do
      let first ← o.call (.binary (level + 1))
      o.call (.binaryChain level first 0)
    else o.call .unary
  | .binaryChain level lhs held => do
    match ← o.step (infixOperator? level) with
    | some op =>
      o.step deepen
      let rhs ← o.call (.binary (level + 1))
      o.call (.binaryChain level (.binary op lhs rhs) (held + 1))
    | none =>
      o.release held
      return lhs
  | .unary => do
    match ← o.step unaryOperator? with
    | some op =>
      o.step deepen
      let operand ← o.call .unary
      o.release 1
      return .ofUnary op operand
    | none => o.call .application
  | .application => do
    let e ← o.call .primary
    o.call (.applicationChain e 0)
  | .applicationChain e held => do
    if ← o.step (accept .leftParen) then do
      o.step deepen
      let args ← o.call .arguments
      o.call (.applicationChain (.call e args) (held + 1))
    else do
      match ← o.call (.property e) with
      | some e' =>
        o.step deepen
        o.call (.applicationChain e' (held + 1))
      | none =>
        o.release held
        return e
  | .property object => do
    if ← o.step (accept .dot) then do
      let name ← o.step propertyName
      return some (.member object name)
    else if ← o.step (accept .leftBracket) then do
      let key ← o.call .expression
      o.step (expect .rightBracket .indexClose)
      return some (.index object key)
    else return none
  | .primary => do
    let (found, position) ← o.step peek
    match found with
    | some (.symbol .leftParen) =>
      o.step advance
      let e ← o.call .expression
      o.step (expect .rightParen .groupClose)
      return e
    | some (.number digits) =>
      match numeralValue? digits.toList with
      | some value =>
        o.step advance
        return .int value
      | none => o.step (fail position (.numberTooLarge digits))
    | some (.text contents) =>
      o.step advance
      return .text contents
    | some (.identifier name) =>
      if name = "true" then do
        o.step advance
        return .bool true
      else if name = "false" then do
        o.step advance
        return .bool false
      else if name = "new" then do
        o.step advance
        o.call .construction
      else if name = "if" ∨ name = "else" then o.step (fail position (.keyword name))
      else do
        o.step advance
        return .ident name
    | _ => o.step (fail position (.noExpression found))
  | .construction => do
    o.step deepen
    let callee ← o.call .primary
    o.call (.constructionChain callee 1)
  | .constructionChain callee held => do
    match ← o.call (.property callee) with
    | some callee' =>
      o.step deepen
      o.call (.constructionChain callee' (held + 1))
    | none =>
      o.step (expect .leftParen .constructorOpen)
      let args ← o.call .arguments
      o.release held
      return .construct callee args
  | .arguments => do
    if ← o.step (accept .rightParen) then return [] else o.call .argumentsAfter
  | .argumentsAfter => do
    let arg ← o.call .expression
    if ← o.step (accept .comma) then do
      let rest ← o.call .argumentsAfter
      return arg :: rest
    else do
      o.step (expect .rightParen .argumentsClose)
      return [arg]

theorem read_zero (p : Production) : p.read 0 = throw .exhausted := by
  cases p <;> simp only [read, Reader.statements, Reader.statement, Reader.statementBody,
    Reader.conditionalStatement, Reader.branch, Reader.expression, Reader.binary,
    Reader.binaryChain, Reader.unary, Reader.application, Reader.applicationChain,
    Reader.property?, Reader.primary, Reader.construction, Reader.constructionChain,
    Reader.arguments, Reader.argumentsAfter]

/-- The routines of the parser, one unfolding at a time. -/
theorem read_succ (n : Nat) (p : Production) :
    p.read (n + 1) = p.body ⟨id, Reader.release, read n⟩ := by
  cases p with
  | statements closing => rw [read, Reader.statements]; rfl
  | statement => rw [read, Reader.statement]; rfl
  | statementBody => rw [read, Reader.statementBody]; rfl
  | conditionalStatement => rw [read, Reader.conditionalStatement]; rfl
  | branch => rw [read, Reader.branch]; rfl
  | expression => rw [read, Reader.expression]; rfl
  | binary level => rw [read, Reader.binary]; rfl
  | binaryChain level lhs held => rw [read, Reader.binaryChain]; rfl
  | unary => rw [read, Reader.unary]; rfl
  | application => rw [read, Reader.application]; rfl
  | applicationChain head held =>
    rw [read, Reader.applicationChain, body]
    refine bind_congr fun b => ite_congr rfl (fun _ => rfl) fun _ => bind_congr fun r => ?_
    cases r <;> rfl
  | property object => rw [read, Reader.property?]; rfl
  | primary => rw [read, Reader.primary]; rfl
  | construction => rw [read, Reader.construction]; rfl
  | constructionChain callee held =>
    rw [read, Reader.constructionChain]
    refine bind_congr fun r => ?_
    cases r <;> rfl
  | arguments => rw [read, Reader.arguments]; rfl
  | argumentsAfter => rw [read, Reader.argumentsAfter]; rfl

end Production

/-! ## Phrases -/

/-- A routine of reading, with its arguments and its result. -/
inductive Phrase
  | statements (closing : Option Symbol) (result : List Stmt)
  | statement (result : Stmt)
  | statementBody (result : Stmt)
  | conditionalStatement (result : Stmt)
  | branch (result : List Stmt)
  | expression (result : Expr)
  | binary (level : Nat) (result : Expr)
  | binaryChain (level : Nat) (lhs : Expr) (held : Nat) (result : Expr)
  | unary (result : Expr)
  | application (result : Expr)
  | applicationChain (head : Expr) (held : Nat) (result : Expr)
  | property (object : Expr) (result : Option Expr)
  | primary (result : Expr)
  | construction (result : Expr)
  | constructionChain (callee : Expr) (held : Nat) (result : Expr)
  | arguments (result : List Expr)
  | argumentsAfter (result : List Expr)

namespace Phrase

/-- The routine that reads the phrase. -/
@[simp, grind]
def production : Phrase → Production
  | statements closing _ => .statements closing
  | statement _ => .statement
  | statementBody _ => .statementBody
  | conditionalStatement _ => .conditionalStatement
  | branch _ => .branch
  | expression _ => .expression
  | binary level _ => .binary level
  | binaryChain level lhs held _ => .binaryChain level lhs held
  | unary _ => .unary
  | application _ => .application
  | applicationChain head held _ => .applicationChain head held
  | property object _ => .property object
  | primary _ => .primary
  | construction _ => .construction
  | constructionChain callee held _ => .constructionChain callee held
  | arguments _ => .arguments
  | argumentsAfter _ => .argumentsAfter

/-- What the phrase is read as. -/
@[simp, grind]
def result : (φ : Phrase) → φ.production.Result
  | statements _ ss | branch ss => ss
  | statement s | statementBody s | conditionalStatement s => s
  | expression e | binary _ e | binaryChain _ _ _ e | unary e | application e
  | applicationChain _ _ e | primary e | construction e | constructionChain _ _ e => e
  | property _ e => e
  | arguments es | argumentsAfter es => es

/-- The levels that are held already when the phrase begins. -/
@[grind]
def held (φ : Phrase) : Nat :=
  φ.production.held

/-- The allowance that the phrase needs until its first token is taken. -/
@[grind]
def cost (φ : Phrase) : Nat :=
  φ.production.cost

/-- The number of tokens that the phrase takes at least. -/
@[grind]
def least (φ : Phrase) : Nat :=
  φ.production.least φ.result

end Phrase

end Isa16
