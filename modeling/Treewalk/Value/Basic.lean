import Treewalk.Builtin.Basic

/-!
# Values

Scalars are values by themselves. Arrays and hashes are references to cells of a store, and
functions to closures there, so that copies of one value share what it refers to. Two values never
belong to a program's data: an error, which ends a program, and a pending return, which carries a
result out of the blocks around it.
-/

set_option autoImplicit false
set_option relaxedAutoImplicit false

namespace Treewalk

/-- The kind of a value, by which errors describe it. -/
inductive ValueKind where
  | integer
  | float
  | string
  | boolean
  | null
  | array
  | hash
  | function
  | builtin
  | error
  | pending
deriving DecidableEq, Repr, Inhabited

/-- The name of a kind. -/
def ValueKind.name : ValueKind → String
  | integer => "INTEGER"
  | float => "FLOAT"
  | string => "STRING"
  | boolean => "BOOLEAN"
  | null => "NULL"
  | array => "ARRAY"
  | hash => "HASH"
  | function => "FUNCTION"
  | builtin => "BUILTIN"
  | error => "ERROR"
  | pending => "RETURN_VALUE"

/-- The cell of an array or a hash, by its number in the order of creation. -/
structure CellId where
  index : Nat
deriving DecidableEq, Repr, Inhabited

/-- A function with the scope it was made in, by its number in the order of creation. -/
structure ClosureId where
  index : Nat
deriving DecidableEq, Repr, Inhabited

/-- A value. -/
inductive Value where
  | int (value : Int64)
  | float (value : Float)
  | str (value : String)
  | bool (value : Bool)
  | null
  | array (cell : CellId)
  | hash (cell : CellId)
  | function (closure : ClosureId)
  | builtin (builtin : Builtin)
  | error (message : String)
  | pending (result : Value)
deriving Inhabited

namespace Value

/-- The kind of a value. -/
def kind : Value → ValueKind
  | int _ => .integer
  | float _ => .float
  | str _ => .string
  | bool _ => .boolean
  | null => .null
  | array _ => .array
  | hash _ => .hash
  | function _ => .function
  | builtin _ => .builtin
  | error _ => .error
  | pending _ => .pending

/-- Every value counts as true but `false` and `null`. -/
def truthy : Value → Bool
  | bool b => b
  | null => false
  | _ => true

/-- Whether a value is an error. -/
def isError : Value → Bool
  | error _ => true
  | _ => false

/-- Whether a value is a pending return. -/
def isPending : Value → Bool
  | pending _ => true
  | _ => false

/-- A pending return of a value; one that is pending already is not wrapped again. -/
def toPending : Value → Value
  | pending v => pending v
  | v => pending v

/-- The result that a pending return carries, and any other value as it is. -/
def result : Value → Value
  | pending v => v
  | v => v

/-- The value inside all pending returns around it. -/
def settled : Value → Value
  | pending v => v.settled
  | v => v

/-- Equality of two operands: scalars by content, arrays, hashes and functions by identity, builtins
by name. -/
def sameAs : Value → Value → Bool
  | int a, int b => a = b
  | float a, float b => a == b
  | str a, str b => a = b
  | bool a, bool b => a = b
  | null, null => true
  | array a, array b => a = b
  | hash a, hash b => a = b
  | function a, function b => a = b
  | builtin a, builtin b => a.name = b.name
  | error a, error b => a = b
  | _, _ => false

/-- A process exit code: the low eight bits of an integer, zero for every other value. -/
def exitCode : Value → Nat
  | int n => (n.toInt % 256).toNat
  | _ => 0

end Value

/-- The exit code of a run that may have no value. -/
def exitCodeOf (value : Option Value) : Nat :=
  (value.map Value.exitCode).getD 0

end Treewalk
