import Treewalk.Eval.Error
import Treewalk.Number.Binary64

/-!
# Operators on values

Integers are computed exactly or not at all, floats by the rules of binary arithmetic, strings are
concatenated and compared by their characters, arrays are concatenated. A float meets an integer as
a float. Every other pair of values can only be compared for identity.
-/

set_option autoImplicit false
set_option relaxedAutoImplicit false

namespace Treewalk

/-- The float nearest to a word. -/
def Word.toFloat (n : Int64) : Float :=
  Float.ofInt n.toInt

/-- A float cut off towards zero, if the result is a word. -/
def Word.ofFloat? (x : Float) : Option Int64 :=
  (Binary64.truncate? x).bind Word.ofInt?

namespace Eval

/-- The error for operands that an operator is not defined for. -/
def unsupported (operator : BinaryOperator) (left right : Value) : RuntimeError :=
  if left.kind = right.kind then .unknownBinary left.kind operator right.kind
  else .typeMismatch left.kind operator right.kind

/-- A shift amount, which has to be below the width of a word. -/
def shiftAmount (n : Int64) : Except RuntimeError Nat :=
  match Word.shiftAmount? n with
  | some amount => .ok amount
  | none => .error (.invalidShift n)

/-- A power of integers. A negative exponent makes it a power of floats. -/
def integerPower (a b : Int64) : Except RuntimeError Value :=
  if b.toInt < 0 then .ok (.float (Float.pow (Word.toFloat a) (Word.toFloat b)))
  else if b.toInt < 0x100000000 then
    match Word.pow? a b.toInt.toNat with
    | some r => .ok (.int r)
    | none => .error (.integerOverflow a .pow b)
  else .error (.integerOverflow a .pow b)

/-- An operator on two integers. -/
def integerBinary (operator : BinaryOperator) (a b : Int64) : Except RuntimeError Value :=
  let exact : Option Int64 → Except RuntimeError Value
    | some r => .ok (.int r)
    | none => .error (.integerOverflow a operator b)
  match operator with
  | .add => exact (Word.add? a b)
  | .sub => exact (Word.sub? a b)
  | .mul => exact (Word.mul? a b)
  | .div => if b = 0 then .error .divisionByZero else exact (Word.div? a b)
  | .mod => if b = 0 then .error .divisionByZero else exact (Word.mod? a b)
  | .pow => integerPower a b
  | .bitAnd => .ok (.int (a &&& b))
  | .bitOr => .ok (.int (a ||| b))
  | .bitXor => .ok (.int (a ^^^ b))
  | .shiftLeft => (shiftAmount b).map fun n ↦ .int (Word.shiftLeft a n)
  | .shiftRight => (shiftAmount b).map fun n ↦ .int (Word.shiftRight a n)
  | .unsignedShiftRight => (shiftAmount b).map fun n ↦ .int (Word.unsignedShiftRight a n)
  | .less => .ok (.bool (a < b))
  | .greater => .ok (.bool (b < a))
  | .lessEqual => .ok (.bool (a ≤ b))
  | .greaterEqual => .ok (.bool (b ≤ a))
  | .equal => .ok (.bool (a = b))
  | .notEqual => .ok (.bool (a ≠ b))
  | .and | .or => .error (unsupported operator (.int a) (.int b))

/-- An operator on two floats, if it is defined for them. -/
def floatBinary? (operator : BinaryOperator) (a b : Float) : Option Value :=
  match operator with
  | .add => some (.float (a + b))
  | .sub => some (.float (a - b))
  | .mul => some (.float (a * b))
  | .div => some (.float (a / b))
  | .mod => some (.float (Binary64.remainder a b))
  | .pow => some (.float (Float.pow a b))
  | .less => some (.bool (a < b))
  | .greater => some (.bool (b < a))
  | .lessEqual => some (.bool (a ≤ b))
  | .greaterEqual => some (.bool (b ≤ a))
  | .equal => some (.bool (a == b))
  | .notEqual => some (.bool (a != b))
  | _ => none

/-- An operator on two strings, if it is defined for them. The order is that of the characters. -/
def stringBinary? (operator : BinaryOperator) (a b : String) : Option Value :=
  match operator with
  | .add => some (.str (a ++ b))
  | .less => some (.bool (a < b))
  | .greater => some (.bool (b < a))
  | .lessEqual => some (.bool (a ≤ b))
  | .greaterEqual => some (.bool (b ≤ a))
  | .equal => some (.bool (a = b))
  | .notEqual => some (.bool (a ≠ b))
  | _ => none

/-- An operator on values that have only identity. -/
def identityBinary (operator : BinaryOperator) (left right : Value) :
    Except RuntimeError Value :=
  match operator with
  | .equal => .ok (.bool (left.sameAs right))
  | .notEqual => .ok (.bool (!left.sameAs right))
  | _ => .error (unsupported operator left right)

/-- A binary operator on two values. -/
def binary (operator : BinaryOperator) (left right : Value) : Eval Value :=
  match operator with
  | .and => pure (.bool (left.truthy && right.truthy))
  | .or => pure (.bool (left.truthy || right.truthy))
  | _ =>
    let orFail : Option Value → Eval Value
      | some v => pure v
      | none => fail (unsupported operator left right)
    match left, right with
    | .int a, .int b => ofExcept (integerBinary operator a b)
    | .int a, .float b => orFail (floatBinary? operator (Word.toFloat a) b)
    | .float a, .int b => orFail (floatBinary? operator a (Word.toFloat b))
    | .float a, .float b => orFail (floatBinary? operator a b)
    | .str a, .str b => orFail (stringBinary? operator a b)
    | .array a, .array b =>
      if operator = .add then do
        let s ← get
        newArray (s.elements a ++ s.elements b)
      else ofExcept (identityBinary operator left right)
    | _, _ => ofExcept (identityBinary operator left right)

/-- A unary operator on a value. -/
def unary (operator : UnaryOperator) (operand : Value) : Except RuntimeError Value :=
  match operator, operand with
  | .not, v => .ok (.bool (!v.truthy))
  | .negate, .int n =>
    match Word.neg? n with
    | some r => .ok (.int r)
    | none => .error (.negationOverflow n)
  | .negate, .float x => .ok (.float (-x))
  | .complement, .int n => .ok (.int (~~~n))
  | _, v => .error (.unknownUnary operator v.kind)

end Eval

end Treewalk
