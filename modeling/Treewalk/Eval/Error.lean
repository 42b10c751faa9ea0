import Treewalk.Number.Word
import Treewalk.Store.Basic

/-!
# Run-time errors

The causes for which evaluation fails and the message of each. `Eval` is a computation on a store
that may fail; a failure keeps the store as it was left.
-/

set_option autoImplicit false
set_option relaxedAutoImplicit false

namespace Treewalk

/-- The largest number of elements that a range may have. -/
def rangeLimit : Nat := 10000000

/-- Why an evaluation fails. -/
inductive RuntimeError where
  /-- Operands of different kinds meet an operator that is not defined for them. -/
  | typeMismatch (left : ValueKind) (operator : BinaryOperator) (right : ValueKind)
  /-- Operands of one kind meet an operator that is not defined for it. -/
  | unknownBinary (left : ValueKind) (operator : BinaryOperator) (right : ValueKind)
  /-- An operand meets a unary operator that is not defined for its kind. -/
  | unknownUnary (operator : UnaryOperator) (operand : ValueKind)
  /-- A name is bound in no scope and is no builtin. -/
  | identifierNotFound (name : String)
  /-- What is called is no function. -/
  | notAFunction (kind : ValueKind)
  /-- A value of this kind cannot be a key. -/
  | unusableKey (kind : ValueKind)
  /-- A value of this kind has no elements. -/
  | indexNotSupported (kind : ValueKind)
  /-- A value of this kind has no elements that can be replaced. -/
  | storeNotSupported (kind : ValueKind)
  /-- An index or a bound of the wrong kind. -/
  | invalidIndex (target subscript : ValueKind)
  /-- A store beyond the ends of an array. -/
  | indexOutOfRange (index : Int64) (length : Nat)
  /-- An integer divided by zero. -/
  | divisionByZero
  /-- The result is no word. -/
  | integerOverflow (left : Int64) (operator : BinaryOperator) (right : Int64)
  /-- The opposite is no word. -/
  | negationOverflow (value : Int64)
  /-- A shift by less than zero or by the width of a word and more. -/
  | invalidShift (amount : Int64)
  /-- A range between values that are not both integers. -/
  | invalidRange (start stop : ValueKind)
  /-- A range with more elements than allowed. -/
  | rangeTooLarge (start stop : Int64)
  /-- A step of something that is not a name of a number. -/
  | invalidStepTarget (target : String)
  /-- An error value that a builtin answered with. -/
  | builtin (message : String)
deriving DecidableEq, Repr, Inhabited

/-- The message of an error. -/
def RuntimeError.message : RuntimeError → String
  | typeMismatch l o r => "type mismatch: " ++ l.name ++ " " ++ o.symbol ++ " " ++ r.name
  | unknownBinary l o r => "unknown operator: " ++ l.name ++ " " ++ o.symbol ++ " " ++ r.name
  | unknownUnary o k => "unknown operator: " ++ o.symbol ++ k.name
  | identifierNotFound name => "identifier not found: " ++ name
  | notAFunction k => "not a function: " ++ k.name
  | unusableKey k => "unusable as hash key: " ++ k.name
  | indexNotSupported k => "index operator not supported: " ++ k.name
  | storeNotSupported k => "index assignment not supported: " ++ k.name
  | invalidIndex t s => "invalid index: " ++ t.name ++ "[" ++ s.name ++ "]"
  | indexOutOfRange i n =>
    "index out of range: " ++ Word.text i ++ " (length " ++ n.repr ++ ")"
  | divisionByZero => "division by zero"
  | integerOverflow a o b =>
    "integer overflow: " ++ Word.text a ++ " " ++ o.symbol ++ " " ++ Word.text b
  | negationOverflow n => "integer overflow: -" ++ Word.text n
  | invalidShift n => "invalid shift amount: " ++ Word.text n
  | invalidRange a b => "range bounds must be INTEGER, got " ++ a.name ++ ".." ++ b.name
  | rangeTooLarge a b =>
    "range " ++ Word.text a ++ " to " ++ Word.text b ++ " exceeds " ++ rangeLimit.repr ++
      " elements"
  | invalidStepTarget target => "cannot increment or decrement " ++ target
  | builtin message => message

/-- Why a computation stops without a result: an error, or the bound on its depth is used up. -/
inductive Stop where
  | failed (error : RuntimeError)
  | exhausted
deriving DecidableEq, Repr, Inhabited

/-- A computation on a store. -/
abbrev Eval := EStateM Stop Store

namespace Eval

/-- Fails with an error. -/
def fail {α : Type} (error : RuntimeError) : Eval α :=
  throw (.failed error)

/-- A result or an error that do not depend on the store. -/
def ofExcept {α : Type} : Except RuntimeError α → Eval α
  | .ok a => pure a
  | .error e => fail e

/-- A result that exists only where some comparison or printing ends. -/
def ofOption {α : Type} : Option α → Eval α
  | some a => pure a
  | none => throw .exhausted

/-- Makes an array. -/
def newArray (elements : Array Value) : Eval Value :=
  modifyGet fun s ↦
    let (id, s) := s.allocate (.array elements)
    (.array id, s)

/-- Makes a hash. -/
def newHash (table : Table) : Eval Value :=
  modifyGet fun s ↦
    let (id, s) := s.allocate (.hash table)
    (.hash id, s)

end Eval

end Treewalk
