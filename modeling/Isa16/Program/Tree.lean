import Isa16.Program.Token
import Isa16.Text.Quoted

/-!
# Syntax trees of programs

* `UnaryOp`, `BinaryOp`: the operators, with `BinaryOp.level` for how tightly one binds.
* `Expr`, `Stmt`: expressions and statements.
* `Expr.describe`: an expression as messages name it.
-/

namespace Isa16

/-- Operators on one value. -/
inductive UnaryOp
  | not
  | neg
  | bitNot
  deriving DecidableEq

/-- The operator that a symbol in front of an operand stands for. -/
def UnaryOp.ofSymbol? : Symbol → Option UnaryOp
  | .bang => some not
  | .dash => some neg
  | .tilde => some bitNot
  | _ => none

/-- Operators on two values. -/
inductive BinaryOp
  | or
  | and
  | bitOr
  | bitXor
  | bitAnd
  | eq
  | ne
  | lt
  | le
  | gt
  | ge
  | shl
  | shr
  | add
  | sub
  | mul
  | div
  | rem
  deriving DecidableEq

namespace BinaryOp

/-- The operator that a symbol between operands stands for. -/
def ofSymbol? : Symbol → Option BinaryOp
  | .doublePipe => some or
  | .doubleAmpersand => some and
  | .pipe => some bitOr
  | .caret => some bitXor
  | .ampersand => some bitAnd
  | .doubleEquals => some eq
  | .bangEquals => some ne
  | .less => some lt
  | .lessEquals => some le
  | .greater => some gt
  | .greaterEquals => some ge
  | .shiftLeft => some shl
  | .shiftRight => some shr
  | .plus => some add
  | .dash => some sub
  | .star => some mul
  | .slash => some div
  | .percent => some rem
  | _ => none

/-- How tightly the operator binds, the loosest at `0`. -/
def level : BinaryOp → Nat
  | or => 0
  | and => 1
  | bitOr => 2
  | bitXor => 3
  | bitAnd => 4
  | eq | ne => 5
  | lt | le | gt | ge => 6
  | shl | shr => 7
  | add | sub => 8
  | mul | div | rem => 9

/-- The number of levels. -/
def levels : Nat := 10

theorem level_lt_levels (op : BinaryOp) : op.level < levels := by
  cases op <;> decide

end BinaryOp

/-- Expressions. -/
inductive Expr
  | int (n : Int64)
  | bool (b : Bool)
  | text (s : String)
  | ident (name : String)
  /-- A property by its name, `object.name`. -/
  | member (object : Expr) (name : String)
  /-- A property by a computed key, `object[key]`. -/
  | index (object key : Expr)
  | call (callee : Expr) (args : List Expr)
  | construct (callee : Expr) (args : List Expr)
  | unary (op : UnaryOp) (operand : Expr)
  | binary (op : BinaryOp) (lhs rhs : Expr)
  | conditional (condition whenTrue whenFalse : Expr)
  deriving Inhabited

namespace Expr

/-- The expression as messages name it. -/
def describe : Expr → String
  | int n => toString n.toInt
  | bool b => toString b
  | text s => inspected s
  | ident name => name
  | member object name => s!"{object.describe}.{name}"
  | index object key => s!"{object.describe}[{key.describe}]"
  | call callee _ => s!"{callee.describe}(..)"
  | construct callee _ => s!"new {callee.describe}(..)"
  | unary .. | binary .. | conditional .. => "an expression"

/-- An operator in front of an operand. Minus on an integer literal is the negated literal, which
wraps. -/
def ofUnary : UnaryOp → Expr → Expr
  | .neg, int n => int (-n)
  | op, operand => unary op operand

end Expr

/-- Statements. -/
inductive Stmt
  | expr (e : Expr)
  | assign (target value : Expr)
  | ite (condition : Expr) (whenTrue whenFalse : List Stmt)
  deriving Inhabited

/-- The statement needs no separator behind it. -/
def Stmt.isConditional : Stmt → Bool
  | ite .. => true
  | expr _ | assign .. => false

end Isa16
