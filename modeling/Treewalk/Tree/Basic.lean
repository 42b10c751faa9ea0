import Treewalk.Token.Position
import Treewalk.Tree.Operator

/-!
# Trees of a program

Expressions, statements and blocks. Every node carries the place of the token that makes it what it
is: the operator of an operation, the opening bracket of a call, an index or a literal, the first
word of everything else. A program is a list of statements.
-/

set_option autoImplicit false
set_option relaxedAutoImplicit false

namespace Treewalk

/-- A name where it is introduced: the target of a binding or a parameter. -/
structure Name where
  text : String
  position : Position
deriving DecidableEq, Repr, Inhabited

mutual

/-- An expression. -/
inductive Expr where
  | name (position : Position) (text : String)
  | int (position : Position) (value : Int64)
  | float (position : Position) (value : Float)
  | str (position : Position) (value : String)
  | bool (position : Position) (value : Bool)
  | unary (position : Position) (operator : UnaryOperator) (operand : Expr)
  | binary (position : Position) (operator : BinaryOperator) (left right : Expr)
  | conditional (position : Position) (condition : Expr) (consequence : Block)
      (alternative : Option Block)
  | function (position : Position) (parameters : List Name) (body : Block)
  | call (position : Position) (callee : Expr) (arguments : List Expr)
  | array (position : Position) (elements : List Expr)
  | hash (position : Position) (pairs : List (Expr × Expr))
  | index (position : Position) (target subscript : Expr)
  | slice (position : Position) (target : Expr) (start stop : Option Expr)
  | whileLoop (position : Position) (condition : Expr) (body : Block)
  | forLoop (position : Position) (start : Stmt) (condition : Expr) (advance : Stmt)
      (body : Block)
  | step (position : Position) (direction : StepDirection) (place : StepPlace) (operand : Expr)
  | range (position : Position) (bound : RangeBound) (start stop : Expr)

/-- A statement: a binding, a store into a collection, a return, an expression or a comment. -/
inductive Stmt where
  | bind (position : Position) (name : Name) (value : Expr)
  | store (position : Position) (name : Name) (subscript value : Expr)
  | ret (position : Position) (value : Expr)
  | expr (position : Position) (expression : Expr)
  | comment (position : Position) (text : String)

/-- Statements between braces. -/
inductive Block where
  | mk (position : Position) (body : List Stmt)

end

instance : Inhabited Expr := ⟨.bool default default⟩

instance : Inhabited Stmt := ⟨.comment default default⟩

/-- A whole program. -/
abbrev Program := List Stmt

def Block.position : Block → Position
  | .mk position _ => position

def Block.body : Block → List Stmt
  | .mk _ body => body

def Expr.position : Expr → Position
  | .name p _ | .int p _ | .float p _ | .str p _ | .bool p _ | .unary p _ _ | .binary p _ _ _
  | .conditional p _ _ _ | .function p _ _ | .call p _ _ | .array p _ | .hash p _ | .index p _ _
  | .slice p _ _ _ | .whileLoop p _ _ | .forLoop p _ _ _ _ | .step p _ _ _ | .range p _ _ _ => p

def Stmt.position : Stmt → Position
  | .bind p _ _ | .store p _ _ _ | .ret p _ | .expr p _ | .comment p _ => p

/-- Whether a statement is a comment. -/
def Stmt.isComment : Stmt → Bool
  | .comment .. => true
  | _ => false

end Treewalk
