/-!
# Operators

The operators that trees carry, with the spelling that the printer and the error messages use.
-/

set_option autoImplicit false
set_option relaxedAutoImplicit false

namespace Treewalk

/-- An operator before its operand. -/
inductive UnaryOperator where
  | not
  | negate
  | complement
deriving DecidableEq, Repr, Inhabited

/-- An operator between its operands. -/
inductive BinaryOperator where
  | add
  | sub
  | mul
  | div
  | mod
  | pow
  | less
  | greater
  | lessEqual
  | greaterEqual
  | equal
  | notEqual
  | bitAnd
  | bitOr
  | bitXor
  | shiftLeft
  | shiftRight
  | unsignedShiftRight
  | and
  | or
deriving DecidableEq, Repr, Inhabited

/-- Which way a step goes. -/
inductive StepDirection where
  | up
  | down
deriving DecidableEq, Repr, Inhabited

/-- Where the sign of a step stands: before the name the step yields the new value, after it the
old one. -/
inductive StepPlace where
  | before
  | after
deriving DecidableEq, Repr, Inhabited

/-- Whether a range contains its end. -/
inductive RangeBound where
  | inclusive
  | exclusive
deriving DecidableEq, Repr, Inhabited

def UnaryOperator.symbol : UnaryOperator → String
  | not => "!"
  | negate => "-"
  | complement => "~"

def BinaryOperator.symbol : BinaryOperator → String
  | add => "+"
  | sub => "-"
  | mul => "*"
  | div => "/"
  | mod => "%"
  | pow => "**"
  | less => "<"
  | greater => ">"
  | lessEqual => "<="
  | greaterEqual => ">="
  | equal => "=="
  | notEqual => "!="
  | bitAnd => "&"
  | bitOr => "|"
  | bitXor => "^"
  | shiftLeft => "<<"
  | shiftRight => ">>"
  | unsignedShiftRight => ">>>"
  | and => "and"
  | or => "or"

def StepDirection.symbol : StepDirection → String
  | up => "++"
  | down => "--"

/-- What a step adds to an integer. -/
def StepDirection.delta : StepDirection → Int64
  | up => 1
  | down => -1

def RangeBound.symbol : RangeBound → String
  | inclusive => ".."
  | exclusive => "..."

/-- What the end adds to the number of integers in a range. -/
def RangeBound.extra : RangeBound → Int64
  | inclusive => 1
  | exclusive => 0

end Treewalk
