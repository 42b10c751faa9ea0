import Treewalk.Eval.Interpreter
import Treewalk.Grammar.Parser

/-!
# Programs

Reading and evaluating a whole source text. A text with syntax errors is not evaluated at all. A
run-time error ends the program with an error value, and a `return` outside functions with its
value. Evaluation works under a bound on its depth and says so when the bound is used up.
-/

set_option autoImplicit false
set_option relaxedAutoImplicit false

namespace Treewalk

/-- The name of a source text that has no other. -/
def defaultSource : String := "<input>"

/-- The program of a source text, or its syntax errors as they are reported. -/
def readProgram (source name : String) : Except (List String) Program :=
  let parsed := Parsed.ofSource source
  if parsed.errors.isEmpty then .ok parsed.program else .error (parsed.located name)

/-- Evaluates the statements of a program. -/
def Eval.program [Host] (known : List Builtin) (depth : Nat) (scope : ScopeId) (program : Program) :
    Eval (Option Value) := do
  let r ← Eval.block known depth scope program
  return r.map Value.result

/-- Evaluates a program in a scope; an error becomes an error value. It has no answer when the bound
on the depth is used up. -/
def execute [Host] (known : List Builtin) (depth : Nat) (program : Program) (scope : ScopeId)
    (s : Store) : Option (Option Value × Store) :=
  match Eval.program known depth scope program s with
  | .ok v s => some (v, s)
  | .error (.failed e) s => some (some (.error e.message), s)
  | .error .exhausted _ => none

/-- What evaluating a source text comes to. -/
inductive Evaluation where
  /-- The text has syntax errors; nothing was evaluated. -/
  | rejected (errors : List String)
  /-- The program ended, with a value or without. -/
  | finished (value : Option Value) (store : Store)
  /-- The bound on the depth is used up. -/
  | exhausted

/-- Evaluates a source text in a scope. -/
def evaluateWith [Host] (known : List Builtin) (depth : Nat) (source : String) (scope : ScopeId)
    (s : Store) : Evaluation :=
  match readProgram source defaultSource with
  | .error errors => .rejected errors
  | .ok program =>
    match execute known depth program scope s with
    | some (v, s) => .finished v s
    | none => .exhausted

/-- Evaluates a source text in a scope, with the builtins of the language. -/
def evaluate (depth : Nat) (source : String) (scope : ScopeId) (s : Store) : Evaluation :=
  evaluateWith Builtin.table depth source scope s

/-- What a run of a whole source text leaves behind, apart from the store: its value, its syntax
errors, what is reported beside the output, and the exit code. -/
structure Run where
  value : Option Value
  errors : List String
  report : String
  exitCode : Nat

/-- Lines of text, each ended by a line feed. -/
def lines (texts : List String) : String :=
  String.join (texts.map (· ++ "\n"))

/-- Runs a whole source text. Errors are reported; with `echo`, any other value but `null` is
written to the output. -/
def run (depth : Nat) (source name : String) (echo : Bool) (scope : ScopeId) (s : Store) :
    Option (Run × Store) :=
  match readProgram source name with
  | .error errors => some (⟨none, errors, lines errors, 1⟩, s)
  | .ok program => do
    let (v, s) ← execute Builtin.table depth program scope s
    let plain : Run := ⟨v, [], "", exitCodeOf v⟩
    match v with
    | none | some .null => return (plain, s)
    | some (.error message) => return ({ plain with report := lines ["ERROR: " ++ message] }, s)
    | some w =>
      if echo then
        let text ← s.inspect? w
        return (plain, s.write scope (text ++ "\n"))
      else return (plain, s)

end Treewalk
