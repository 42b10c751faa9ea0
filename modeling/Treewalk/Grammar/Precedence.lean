import Treewalk.Token.Kind
import Treewalk.Tree.Operator

/-!
# How tightly operators bind

The levels of binding, the level of the token that would go on with an expression, and the operators
that tokens stand for.
-/

set_option autoImplicit false
set_option relaxedAutoImplicit false

namespace Treewalk

/-- A level of binding, from the loosest to the tightest. -/
inductive Precedence where
  | lowest
  | logical
  | equality
  | comparison
  | range
  | sum
  | product
  | power
  | unary
  | bitwise
  | call
  | index
deriving DecidableEq, Repr, Inhabited

namespace Precedence

/-- The place of a level in the order of binding. -/
def rank : Precedence → Nat
  | lowest => 0
  | logical => 1
  | equality => 2
  | comparison => 3
  | range => 4
  | sum => 5
  | product => 6
  | power => 7
  | unary => 8
  | bitwise => 9
  | call => 10
  | index => 11

instance : LT Precedence := ⟨fun p q ↦ p.rank < q.rank⟩

instance (p q : Precedence) : Decidable (p < q) :=
  inferInstanceAs (Decidable (p.rank < q.rank))

/-- The level at which a token goes on with the expression before it. A token that cannot go on with
one is at the lowest level. -/
def of : Kind → Precedence
  | .andWord | .orWord => logical
  | .equal | .notEqual => equality
  | .less | .greater | .lessEqual | .greaterEqual => comparison
  | .range | .exclusiveRange => range
  | .plus | .minus => sum
  | .asterisk | .slash | .percent => product
  | .power => power
  | .ampersand | .pipe | .caret | .shiftLeft | .shiftRight | .unsignedShiftRight => bitwise
  | .lparen | .increment | .decrement => call
  | .lbracket => index
  | _ => lowest

end Precedence

/-- The unary operator that a token stands for at the start of an expression. -/
def UnaryOperator.ofKind? : Kind → Option UnaryOperator
  | .bang => some .not
  | .minus => some .negate
  | .tilde => some .complement
  | _ => none

/-- The binary operator that a token stands for after an expression. -/
def BinaryOperator.ofKind? : Kind → Option BinaryOperator
  | .plus => some .add
  | .minus => some .sub
  | .asterisk => some .mul
  | .slash => some .div
  | .percent => some .mod
  | .power => some .pow
  | .less => some .less
  | .greater => some .greater
  | .lessEqual => some .lessEqual
  | .greaterEqual => some .greaterEqual
  | .equal => some .equal
  | .notEqual => some .notEqual
  | .ampersand => some .bitAnd
  | .pipe => some .bitOr
  | .caret => some .bitXor
  | .shiftLeft => some .shiftLeft
  | .shiftRight => some .shiftRight
  | .unsignedShiftRight => some .unsignedShiftRight
  | .andWord => some .and
  | .orWord => some .or
  | _ => none

/-- The direction of a step that a token stands for. -/
def StepDirection.ofKind? : Kind → Option StepDirection
  | .increment => some .up
  | .decrement => some .down
  | _ => none

/-- The sort of range that a token stands for. -/
def RangeBound.ofKind? : Kind → Option RangeBound
  | .range => some .inclusive
  | .exclusiveRange => some .exclusive
  | _ => none

end Treewalk
