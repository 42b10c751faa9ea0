import Treewalk.Proofs.Eval.Closures
import Treewalk.Proofs.Tree.Places

/-!
# Relations between evaluations

Evaluation is put together from operations that are blind to closures (`Oblivious`), from sequences,
from making closures and from looking into them, from looking up names and from calling builtins. So
a relation between evaluations that holds of these parts and is kept by putting them together holds
between the evaluation of code and that of the same code at other places (`Eval.relatedAt`). The
second evaluation may know other builtins, if the relation holds between looking up names in the two
tables, and it may work under a larger bound on its depth, if the relation allows for the first to
run out.
-/

set_option autoImplicit false
set_option relaxedAutoImplicit false

namespace Treewalk

/-- The closure at other places. -/
def Closure.relocate (g : Position → Position) (c : Closure) : Closure :=
  ⟨c.parameters.map (Name.relocate g), c.body.relocate g, c.scope⟩

variable {g : Position → Position}

theorem Store.bindAll_relocate (s : Store) (id : ScopeId) (names : List Name)
    (args : List Value) :
    s.bindAll id (names.map (Name.relocate g)) args = s.bindAll id names args := by
  induction names generalizing s args with
  | nil => rfl
  | cons name names ih =>
    cases args with
    | nil => rfl
    | cons v vs => exact ih (s.bind id name.text v) vs

theorem Block.body_relocate (b : Block) : (b.relocate g).body = Stmt.relocateList g b.body := by
  obtain ⟨p, body⟩ := b
  rw [Block.relocate, Block.body, Block.body]

theorem Expr.text_relocate (e : Expr) : (e.relocate g).text = e.text := by
  rw [← Expr.text_erase, e.erase_relocate, Expr.text_erase]

namespace Eval

/-- Runs the body of a function in a new scope inside the one it was made in. -/
def call [Host] (known : List Builtin) (depth : Nat) (f : Closure) (args : List Value) :
    Eval Value := do
  let inner ← modifyGet fun s ↦ s.enclose f.scope
  modify fun s ↦ s.bindAll inner f.parameters args
  let r ← block known depth inner f.body.body
  return (r.map Value.result).getD .null

theorem apply_function [Host] (known : List Builtin) (depth : Nat) (scope : ScopeId)
    (id : ClosureId) (args : List Value) :
    apply known (depth + 1) scope (.function id) args =
      get >>= fun s ↦ call known depth (s.closure id) args :=
  rfl

/-- What cannot be stepped shows in the error by its text, which does not depend on places. -/
theorem step_relocate (scope : ScopeId) (direction : StepDirection) (place : StepPlace)
    (operand : Expr) :
    step scope direction place (operand.relocate g) = step scope direction place operand := by
  cases operand with
  | name p text => rfl
  | _ => exact congrArg (fun text ↦ fail (.invalidStepTarget text)) (Expr.text_relocate _)

/-- A relation between evaluations that their parts have and that is kept by putting parts together.
The second evaluation makes and finds closures at the places that `g` gives. -/
structure Relation (g : Position → Position) (R : ∀ {α : Type}, Eval α → Eval α → Prop) :
    Prop where
  oblivious : ∀ {α : Type} {m : Eval α}, Oblivious m → R m m
  bind : ∀ {α β : Type} {m n : Eval α} {k l : α → Eval β}, R m n → (∀ a, R (k a) (l a)) →
    R (m >>= k) (n >>= l)
  newClosure : ∀ c : Closure, R (newClosure c) (newClosure (c.relocate g))
  closure : ∀ {α : Type} (id : ClosureId) {k l : Closure → Eval α},
    (∀ f, R (k f) (l (f.relocate g))) →
      R (get >>= fun s ↦ k (s.closure id)) (get >>= fun s ↦ l (s.closure id))

/-- A relation that holds between looking up names in two tables of builtins, and of every call of
a builtin. -/
structure Resolves [Host] (R : ∀ {α : Type}, Eval α → Eval α → Prop)
    (known known' : List Builtin) : Prop where
  identifier : ∀ (scope : ScopeId) (name : String),
    R (identifier known scope name) (identifier known' scope name)
  invoke : ∀ (b : Builtin) (scope : ScopeId) (args : List Value),
    R (Host.invoke b scope args) (Host.invoke b scope args)

/-- All evaluations of code with the first table under the first bound are related to those of the
code at other places with the second table under the second bound. -/
structure RelatedAt [Host] (g : Position → Position) (R : ∀ {α : Type}, Eval α → Eval α → Prop)
    (known known' : List Builtin) (depth depth' : Nat) : Prop where
  expr (scope : ScopeId) (e : Expr) :
    R (expr known depth scope e) (expr known' depth' scope (e.relocate g))
  optional (scope : ScopeId) (e : Option Expr) :
    R (optional known depth scope e) (optional known' depth' scope (Expr.relocateOption g e))
  exprs (scope : ScopeId) (es : List Expr) :
    R (exprs known depth scope es) (exprs known' depth' scope (Expr.relocateList g es))
  entries (scope : ScopeId) (pairs : List (Expr × Expr)) (table : Table) :
    R (entries known depth scope pairs table)
      (entries known' depth' scope (Expr.relocatePairs g pairs) table)
  block (scope : ScopeId) (ss : List Stmt) :
    R (block known depth scope ss) (block known' depth' scope (Stmt.relocateList g ss))
  stmt (scope : ScopeId) (statement : Stmt) :
    R (stmt known depth scope statement) (stmt known' depth' scope (statement.relocate g))
  whileLoop (scope : ScopeId) (condition : Expr) (body : List Stmt) :
    R (whileLoop known depth scope condition body)
      (whileLoop known' depth' scope (condition.relocate g) (Stmt.relocateList g body))
  forLoop (scope : ScopeId) (condition : Expr) (advance : Stmt) (body : List Stmt) :
    R (forLoop known depth scope condition advance body)
      (forLoop known' depth' scope (condition.relocate g) (advance.relocate g)
        (Stmt.relocateList g body))
  apply (scope : ScopeId) (callee : Value) (args : List Value) :
    R (apply known depth scope callee args) (apply known' depth' scope callee args)

variable {R : ∀ {α : Type}, Eval α → Eval α → Prop} {known known' : List Builtin}
  {depth depth' : Nat}

namespace Relation

variable {α : Type} {m n : Eval α} (h : Relation g R)

include h

protected theorem pure (a : α) : R (pure a) (pure a) :=
  h.oblivious (.pure a)

theorem fail (e : RuntimeError) : R (Eval.fail e : Eval α) (Eval.fail e) :=
  h.oblivious (.fail e)

/-- Something is made of a result. -/
theorem map {β : Type} (hm : R m n) (f : α → β) :
    R (m >>= fun a ↦ Pure.pure (f a)) (n >>= fun a ↦ Pure.pure (f a)) :=
  h.bind hm fun a ↦ h.pure (f a)

omit h in
theorem ite (_ : Relation g R) {p : Prop} [Decidable p] {m' n' : Eval α} (hm : R m n)
    (hm' : R m' n') : R (if p then m else m') (if p then n else n') := by
  split
  · exact hm
  · exact hm'

/-- The language by itself looks up names and calls builtins without a view of closures. -/
theorem resolves (known : List Builtin) : Resolves R known known where
  identifier scope name := h.oblivious (oblivious_identifier scope known name)
  invoke b scope args := h.oblivious (Builtin.oblivious_call b scope args)

end Relation

/-! ### Code -/

section Step

variable [Host] (h : Relation g R) (hr : Resolves R known known')
  (ih : RelatedAt g R known known' depth depth') (scope : ScopeId)

include h ih

/-- A function's scope and parameters do not depend on places. -/
theorem RelatedAt.call (f : Closure) (args : List Value) :
    R (Eval.call known depth f args) (Eval.call known' depth' (f.relocate g) args) := by
  refine h.bind (h.oblivious fun _ _ _ ↦ rfl) fun inner ↦ ?_
  have hbind : R (modify fun s ↦ s.bindAll inner f.parameters args)
      (modify fun s ↦ s.bindAll inner (f.relocate g).parameters args) := by
    simp only [Closure.relocate, Store.bindAll_relocate]
    exact h.oblivious (.modify fun s closures ↦ s.bindAll_withClosures closures inner _ args)
  refine h.bind hbind fun _ ↦ h.map ?_ _
  rw [Closure.relocate, Block.body_relocate]
  exact ih.block inner f.body.body

include hr in
theorem RelatedAt.apply_succ (callee : Value) (args : List Value) :
    R (Eval.apply known (depth + 1) scope callee args)
      (Eval.apply known' (depth' + 1) scope callee args) := by
  cases callee with
  | function id =>
    rw [apply_function, apply_function]
    exact h.closure id (k := (Eval.call known depth · args)) (l := (Eval.call known' depth' · args))
      fun f ↦ RelatedAt.call h ih f args
  | builtin b =>
    rw [Eval.apply, Eval.apply]
    refine h.bind (hr.invoke b scope args) fun v ↦ ?_
    split
    · exact h.fail _
    · exact h.pure _
  | _ => exact h.fail _

include hr in
theorem RelatedAt.expr_succ (e : Expr) :
    R (Eval.expr known (depth + 1) scope e)
      (Eval.expr known' (depth' + 1) scope (e.relocate g)) := by
  have hbody (b : Block) :
      R (Eval.block known depth scope b.body >>= fun r ↦ Pure.pure (r.getD .null))
        (Eval.block known' depth' scope (b.relocate g).body >>= fun r ↦
          Pure.pure (r.getD .null)) := by
    rw [Block.body_relocate]
    exact h.map (ih.block scope b.body) _
  rw [Eval.expr.eq_def, Eval.expr.eq_def]
  cases e with
  | name p text => exact hr.identifier scope text
  | int p n => exact h.pure _
  | float p x => exact h.pure _
  | str p text => exact h.pure _
  | bool p b => exact h.pure _
  | unary p operator operand =>
    exact h.bind (ih.expr scope operand) fun v ↦ h.oblivious (.ofExcept _)
  | binary p operator left right =>
    exact h.bind (ih.expr scope left) fun v ↦ h.bind (ih.expr scope right) fun w ↦
      h.oblivious (oblivious_binary operator v w)
  | conditional p condition consequence alternative =>
    refine h.bind (ih.expr scope condition) fun c ↦ h.ite (hbody consequence) ?_
    cases alternative with
    | some other => exact hbody other
    | none => exact h.pure _
  | function p parameters body => exact h.newClosure ⟨parameters, body, scope⟩
  | call p callee arguments =>
    exact h.bind (ih.expr scope callee) fun f ↦ h.bind (ih.exprs scope arguments) fun vs ↦
      ih.apply scope f vs
  | array p elements =>
    exact h.bind (ih.exprs scope elements) fun vs ↦ h.oblivious (.newArray _)
  | hash p pairs => exact h.bind (ih.entries scope pairs []) fun t ↦ h.oblivious (.newHash t)
  | index p target subscript =>
    exact h.bind (ih.expr scope target) fun v ↦ h.bind (ih.expr scope subscript) fun i ↦
      h.oblivious (oblivious_index v i)
  | slice p target start stop =>
    exact h.bind (ih.expr scope target) fun v ↦ h.bind (ih.optional scope start) fun i ↦
      h.bind (ih.optional scope stop) fun j ↦ h.oblivious (oblivious_slice v i j)
  | whileLoop p condition body =>
    obtain ⟨q, ss⟩ := body
    exact ih.whileLoop scope condition ss
  | forLoop p start condition advance body =>
    obtain ⟨q, ss⟩ := body
    refine h.bind (ih.stmt scope start) fun r ↦ ?_
    split
    · exact h.pure _
    · exact ih.forLoop scope condition advance ss
  | step p direction place operand =>
    rw [Expr.relocate]
    dsimp only
    rw [step_relocate]
    exact h.oblivious (oblivious_step scope direction place operand)
  | range p sort start stop =>
    exact h.bind (ih.expr scope start) fun a ↦ h.bind (ih.expr scope stop) fun b ↦
      h.oblivious (oblivious_range sort a b)

theorem RelatedAt.optional_succ (e : Option Expr) :
    R (Eval.optional known (depth + 1) scope e)
      (Eval.optional known' (depth' + 1) scope (Expr.relocateOption g e)) := by
  cases e with
  | none => exact h.pure _
  | some e => exact h.map (ih.expr scope e) _

theorem RelatedAt.exprs_succ (es : List Expr) :
    R (Eval.exprs known (depth + 1) scope es)
      (Eval.exprs known' (depth' + 1) scope (Expr.relocateList g es)) := by
  cases es with
  | nil => exact h.pure _
  | cons e es => exact h.bind (ih.expr scope e) fun v ↦ h.map (ih.exprs scope es) _

theorem RelatedAt.entries_succ (pairs : List (Expr × Expr)) (table : Table) :
    R (Eval.entries known (depth + 1) scope pairs table)
      (Eval.entries known' (depth' + 1) scope (Expr.relocatePairs g pairs) table) := by
  cases pairs with
  | nil => exact h.pure _
  | cons pair pairs =>
    obtain ⟨k, e⟩ := pair
    refine h.bind (ih.expr scope k) fun key ↦ h.bind (h.oblivious (.ofExcept _)) fun slot ↦ ?_
    exact h.bind (ih.expr scope e) fun value ↦ ih.entries scope pairs _

theorem RelatedAt.block_succ (ss : List Stmt) :
    R (Eval.block known (depth + 1) scope ss)
      (Eval.block known' (depth' + 1) scope (Stmt.relocateList g ss)) := by
  rcases ss with _ | ⟨statement, _ | ⟨next, ss⟩⟩
  · exact h.pure _
  · exact ih.stmt scope statement
  · exact h.bind (ih.stmt scope statement) fun r ↦ h.ite (h.pure r) (ih.block scope (next :: ss))

theorem RelatedAt.stmt_succ (statement : Stmt) :
    R (Eval.stmt known (depth + 1) scope statement)
      (Eval.stmt known' (depth' + 1) scope (statement.relocate g)) := by
  rw [Eval.stmt.eq_def, Eval.stmt.eq_def]
  cases statement with
  | bind p name e =>
    refine h.bind (ih.expr scope e) fun v ↦ h.ite (h.pure _) ?_
    exact h.map (h.oblivious (.modify fun _ _ ↦ rfl)) _
  | store p name subscript e =>
    refine h.bind (ih.expr scope e) fun v ↦ h.ite (h.pure _) ?_
    refine h.bind (h.oblivious (oblivious_binding scope name.text)) fun target ↦ ?_
    refine h.bind (ih.expr scope subscript) fun i ↦ ?_
    exact h.map (h.oblivious (oblivious_store target i v)) _
  | ret p e => exact h.map (ih.expr scope e) _
  | expr p e => exact h.map (ih.expr scope e) _
  | comment p text => exact h.pure _

theorem RelatedAt.whileLoop_succ (condition : Expr) (body : List Stmt) :
    R (Eval.whileLoop known (depth + 1) scope condition body)
      (Eval.whileLoop known' (depth' + 1) scope (condition.relocate g)
        (Stmt.relocateList g body)) := by
  refine h.bind (ih.expr scope condition) fun c ↦ h.ite ?_ (h.pure _)
  refine h.bind (ih.block scope body) fun r ↦ ?_
  split
  · exact h.pure _
  · exact ih.whileLoop scope condition body

theorem RelatedAt.forLoop_succ (condition : Expr) (advance : Stmt) (body : List Stmt) :
    R (Eval.forLoop known (depth + 1) scope condition advance body)
      (Eval.forLoop known' (depth' + 1) scope (condition.relocate g) (advance.relocate g)
        (Stmt.relocateList g body)) := by
  refine h.bind (ih.expr scope condition) fun c ↦ h.ite ?_ (h.pure _)
  refine h.bind (ih.block scope body) fun r ↦ ?_
  split
  · exact h.pure _
  · refine h.bind (ih.stmt scope advance) fun a ↦ ?_
    split
    · exact h.pure _
    · exact ih.forLoop scope condition advance body

end Step

/-- A relation that the parts of evaluations have holds of all code, at other places, with another
table and under a larger bound. -/
theorem relatedAt [Host] (h : Relation g R) (hr : Resolves R known known') (hle : depth ≤ depth')
    (hz : depth = depth' ∨ ∀ {α : Type} (n : Eval α), R (throw .exhausted) n) :
    RelatedAt g R known known' depth depth' := by
  induction depth generalizing depth' with
  | zero =>
    rcases hz with rfl | hz
    · have hthrow : ∀ {α : Type}, R (throw .exhausted : Eval α) (throw .exhausted) :=
        h.oblivious (.throw _)
      exact ⟨fun _ _ ↦ hthrow, fun _ _ ↦ hthrow, fun _ _ ↦ hthrow, fun _ _ _ ↦ hthrow,
        fun _ _ ↦ hthrow, fun _ _ ↦ hthrow, fun _ _ _ ↦ hthrow, fun _ _ _ _ ↦ hthrow,
        fun _ _ _ ↦ hthrow⟩
    · exact ⟨fun _ _ ↦ hz _, fun _ _ ↦ hz _, fun _ _ ↦ hz _, fun _ _ _ ↦ hz _, fun _ _ ↦ hz _,
        fun _ _ ↦ hz _, fun _ _ _ ↦ hz _, fun _ _ _ _ ↦ hz _, fun _ _ _ ↦ hz _⟩
  | succ depth ih =>
    obtain ⟨depth', rfl⟩ := Nat.exists_eq_add_of_le' (Nat.lt_of_lt_of_le (Nat.succ_pos depth) hle)
    have ih := ih (Nat.le_of_succ_le_succ hle) (hz.imp_left Nat.succ.inj)
    exact ⟨RelatedAt.expr_succ h hr ih, RelatedAt.optional_succ h ih, RelatedAt.exprs_succ h ih,
      RelatedAt.entries_succ h ih, RelatedAt.block_succ h ih, RelatedAt.stmt_succ h ih,
      RelatedAt.whileLoop_succ h ih, RelatedAt.forLoop_succ h ih, RelatedAt.apply_succ h hr ih⟩

end Eval

end Treewalk
