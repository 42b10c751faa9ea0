/-!
# Builtin functions

A builtin has a name, the argument counts it accepts and the operation it performs. `Builtin.table`
lists those of the language in their fixed order.
-/

set_option autoImplicit false
set_option relaxedAutoImplicit false

namespace Treewalk

/-- The argument counts that a builtin accepts. -/
inductive Arity where
  | exactly (count : Nat)
  | atLeast (count : Nat)
  | oneOf (counts : List Nat)
deriving DecidableEq, Repr, Inhabited

namespace Arity

/-- Whether a count is accepted. -/
def accepts : Arity → Nat → Bool
  | exactly m, n => n = m
  | atLeast m, n => m ≤ n
  | oneOf counts, n => counts.contains n

/-- A list of alternatives: commas, and the word before the last. -/
def alternatives : List Nat → String
  | [] => ""
  | [n] => n.repr
  | [m, n] => m.repr ++ " or " ++ n.repr
  | m :: n :: k :: rest => m.repr ++ ", " ++ alternatives (n :: k :: rest)

/-- The accepted counts in words. -/
def text : Arity → String
  | exactly n => n.repr
  | atLeast n => "at least " ++ n.repr
  | oneOf counts => alternatives counts

end Arity

/-- What a builtin does. -/
inductive Operation where
  | len
  | first
  | last
  | rest
  | push
  | keys
  | values
  | delete
  | contains
  | puts
  | print
  | type
  | string
  | int
  | float
  | join
  | split
deriving DecidableEq, Repr, Inhabited

/-- A function that the language provides. -/
structure Builtin where
  name : String
  arity : Arity
  operation : Operation
deriving DecidableEq, Repr, Inhabited

namespace Builtin

/-- The builtins of the language. -/
def table : List Builtin :=
  [⟨"len", .exactly 1, .len⟩,
   ⟨"first", .exactly 1, .first⟩,
   ⟨"last", .exactly 1, .last⟩,
   ⟨"rest", .exactly 1, .rest⟩,
   ⟨"push", .exactly 2, .push⟩,
   ⟨"keys", .exactly 1, .keys⟩,
   ⟨"values", .exactly 1, .values⟩,
   ⟨"delete", .exactly 2, .delete⟩,
   ⟨"contains", .exactly 2, .contains⟩,
   ⟨"puts", .atLeast 0, .puts⟩,
   ⟨"print", .atLeast 0, .print⟩,
   ⟨"type", .exactly 1, .type⟩,
   ⟨"string", .exactly 1, .string⟩,
   ⟨"int", .exactly 1, .int⟩,
   ⟨"float", .exactly 1, .float⟩,
   ⟨"join", .oneOf [1, 2], .join⟩,
   ⟨"split", .oneOf [1, 2], .split⟩]

/-- The first builtin of a table with the given name. -/
def find? (known : List Builtin) (name : String) : Option Builtin :=
  known.find? fun b ↦ b.name = name

end Builtin

end Treewalk
