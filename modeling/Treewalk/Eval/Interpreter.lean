import Treewalk.Builtin.Call

/-!
# Evaluation

Operands, elements and arguments are evaluated from left to right, and the first error ends the
evaluation. A `return` makes its value a pending return, which ends the blocks and loops around it
until a call or the program takes the value out; a binding passes it on. Elsewhere it is a value
like any other.

All functions take a bound on the depth of evaluation: one less for every part of a tree, every turn
of a loop and every call. An evaluation that ends does so under every large enough bound.
-/

set_option autoImplicit false
set_option relaxedAutoImplicit false

namespace Treewalk.Eval

/-- Whether a statement ended in a pending return. -/
def endsBlock : Option Value → Bool
  | some v => v.isPending
  | none => false

/-- The value of a name: its binding, or else the builtin of that name. -/
def identifier (known : List Builtin) (scope : ScopeId) (name : String) : Eval Value := do
  match (← get).lookup? scope name with
  | some v => return v
  | none =>
    match Builtin.find? known name with
    | some b => return .builtin b
    | none => fail (.identifierNotFound name)

/-- The binding of a name. -/
def binding (scope : ScopeId) (name : String) : Eval Value := do
  match (← get).lookup? scope name with
  | some v => return v
  | none => fail (.identifierNotFound name)

/-- The number after or before another. -/
def stepped (direction : StepDirection) (name : String) : Value → Except RuntimeError Value
  | .int n =>
    match Word.add? n direction.delta with
    | some r => .ok (.int r)
    | none => .error (.invalidStepTarget (name ++ " (integer overflow)"))
  | .float x => .ok (.float (x + Word.toFloat direction.delta))
  | v => .error (.invalidStepTarget (name ++ " (" ++ v.kind.name ++ ")"))

/-- Steps a number that a name is bound to and binds the name again, in the scope at hand. -/
def step (scope : ScopeId) (direction : StepDirection) (place : StepPlace) :
    Expr → Eval Value
  | .name _ name => do
    let old ← binding scope name
    let new ← ofExcept (stepped direction name old)
    modify fun s ↦ s.bind scope name new
    match place with
    | .before => return new
    | .after => return old
  | operand => fail (.invalidStepTarget operand.text)

/-- Makes a function of a literal. -/
def newClosure (closure : Closure) : Eval Value :=
  modifyGet fun s ↦
    let (id, s) := s.close closure
    (.function id, s)

variable [Host]

mutual

/-- Evaluates an expression. -/
def expr (known : List Builtin) : Nat → ScopeId → Expr → Eval Value
  | 0, _, _ => throw .exhausted
  | depth + 1, scope, e =>
    match e with
    | .name _ text => identifier known scope text
    | .int _ n => return .int n
    | .float _ x => return .float x
    | .str _ text => return .str text
    | .bool _ b => return .bool b
    | .unary _ operator operand => do
      let v ← expr known depth scope operand
      ofExcept (unary operator v)
    | .binary _ operator left right => do
      let v ← expr known depth scope left
      let w ← expr known depth scope right
      binary operator v w
    | .conditional _ condition consequence alternative => do
      let c ← expr known depth scope condition
      if c.truthy then
        return (← block known depth scope consequence.body).getD .null
      else
        match alternative with
        | some other => return (← block known depth scope other.body).getD .null
        | none => return .null
    | .function _ parameters body => newClosure ⟨parameters, body, scope⟩
    | .call _ callee arguments => do
      let f ← expr known depth scope callee
      let vs ← exprs known depth scope arguments
      apply known depth scope f vs
    | .array _ elements => do
      let vs ← exprs known depth scope elements
      newArray vs.toArray
    | .hash _ pairs => do
      let table ← entries known depth scope pairs []
      newHash table
    | .index _ target subscript => do
      let v ← expr known depth scope target
      let i ← expr known depth scope subscript
      index v i
    | .slice _ target start stop => do
      let v ← expr known depth scope target
      let i ← optional known depth scope start
      let j ← optional known depth scope stop
      slice v i j
    | .whileLoop _ condition body => whileLoop known depth scope condition body.body
    | .forLoop _ start condition advance body => do
      let r ← stmt known depth scope start
      match r with
      | some (.pending v) => return .pending v
      | _ => forLoop known depth scope condition advance body.body
    | .step _ direction place operand => step scope direction place operand
    | .range _ sort start stop => do
      let a ← expr known depth scope start
      let b ← expr known depth scope stop
      range sort a b

/-- Evaluates an expression that may be missing. -/
def optional (known : List Builtin) : Nat → ScopeId → Option Expr → Eval (Option Value)
  | 0, _, _ => throw .exhausted
  | _ + 1, _, none => return none
  | depth + 1, scope, some e => return some (← expr known depth scope e)

/-- Evaluates expressions from left to right. -/
def exprs (known : List Builtin) : Nat → ScopeId → List Expr → Eval (List Value)
  | 0, _, _ => throw .exhausted
  | _ + 1, _, [] => return []
  | depth + 1, scope, e :: es => do
    let v ← expr known depth scope e
    let vs ← exprs known depth scope es
    return v :: vs

/-- Evaluates the pairs of a hash literal and adds them to a table. A key is checked before its
value is evaluated. -/
def entries (known : List Builtin) :
    Nat → ScopeId → List (Expr × Expr) → Table → Eval Table
  | 0, _, _, _ => throw .exhausted
  | _ + 1, _, [], table => return table
  | depth + 1, scope, (k, e) :: pairs, table => do
    let key ← expr known depth scope k
    let slot ← ofExcept (keyOf key)
    let value ← expr known depth scope e
    entries known depth scope pairs (Table.insert ⟨slot, key, value⟩ table)

/-- Evaluates statements up to the first that ends in a pending return, and gives what the last one
gave. -/
def block (known : List Builtin) : Nat → ScopeId → List Stmt → Eval (Option Value)
  | 0, _, _ => throw .exhausted
  | _ + 1, _, [] => return none
  | depth + 1, scope, [s] => stmt known depth scope s
  | depth + 1, scope, s :: ss => do
    let r ← stmt known depth scope s
    if endsBlock r then return r else block known depth scope ss

/-- Evaluates a statement. -/
def stmt (known : List Builtin) : Nat → ScopeId → Stmt → Eval (Option Value)
  | 0, _, _ => throw .exhausted
  | depth + 1, scope, s =>
    match s with
    | .bind _ name e => do
      let v ← expr known depth scope e
      if v.isPending then return some v
      else
        modify fun s ↦ s.bind scope name.text v
        return none
    | .store _ name subscript e => do
      let v ← expr known depth scope e
      if v.isPending then return some v
      else
        let target ← binding scope name.text
        let i ← expr known depth scope subscript
        store target i v
        return none
    | .ret _ e => return some (← expr known depth scope e).toPending
    | .expr _ e => return some (← expr known depth scope e)
    | .comment .. => return none

/-- Evaluates a body as long as a condition holds. -/
def whileLoop (known : List Builtin) : Nat → ScopeId → Expr → List Stmt → Eval Value
  | 0, _, _, _ => throw .exhausted
  | depth + 1, scope, condition, body => do
    let c ← expr known depth scope condition
    if c.truthy then
      let r ← block known depth scope body
      match r with
      | some (.pending v) => return .pending v
      | _ => whileLoop known depth scope condition body
    else return .null

/-- Evaluates a body and then the advance as long as a condition holds. -/
def forLoop (known : List Builtin) : Nat → ScopeId → Expr → Stmt → List Stmt → Eval Value
  | 0, _, _, _, _ => throw .exhausted
  | depth + 1, scope, condition, advance, body => do
    let c ← expr known depth scope condition
    if c.truthy then
      let r ← block known depth scope body
      match r with
      | some (.pending v) => return .pending v
      | _ =>
        let a ← stmt known depth scope advance
        match a with
        | some (.pending v) => return .pending v
        | _ => forLoop known depth scope condition advance body
    else return .null

/-- Calls a function or a builtin with arguments. A function runs in a new scope inside the one it
was made in; parameters without an argument stay unbound. -/
def apply (known : List Builtin) : Nat → ScopeId → Value → List Value → Eval Value
  | 0, _, _, _ => throw .exhausted
  | depth + 1, scope, callee, args =>
    match callee with
    | .function id => do
      let f := (← get).closure id
      let inner ← modifyGet fun s ↦ s.enclose f.scope
      modify fun s ↦ s.bindAll inner f.parameters args
      let r ← block known depth inner f.body.body
      return (r.map Value.result).getD .null
    | .builtin b => do
      let v ← Host.invoke b scope args
      match v with
      | .error message => fail (.builtin message)
      | _ => return v
    | _ => fail (.notAFunction callee.kind)

end

end Treewalk.Eval
