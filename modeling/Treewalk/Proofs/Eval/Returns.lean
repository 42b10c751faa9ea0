import Treewalk.Proofs.Eval.Guards

/-!
# Pending returns

Where a return statement stands in a block, in the value of a statement, in a branch or in a loop,
everything around it ends with its pending return (`Returns.eval_eq`), until a call or the program
takes the result out. Together with what holds of guarded code: a return is never data there, and it
ends the call or the program.
-/

set_option autoImplicit false
set_option relaxedAutoImplicit false

namespace Treewalk

/-! ### The way of a pending return -/

/-- A part of a program that is evaluated by itself. -/
inductive Part where
  | expr (e : Expr)
  | stmt (statement : Stmt)
  | block (statements : List Stmt)
  | whileLoop (condition : Expr) (body : List Stmt)
  | forLoop (condition : Expr) (advance : Stmt) (body : List Stmt)

/-- Evaluates a part. -/
def Part.eval (known : List Builtin) (depth : Nat) (scope : ScopeId) : Part → Eval (Option Value)
  | .expr e => some <$> Eval.expr known depth scope e
  | .stmt statement => Eval.stmt known depth scope statement
  | .block statements => Eval.block known depth scope statements
  | .whileLoop condition body => some <$> Eval.whileLoop known depth scope condition body
  | .forLoop condition advance body =>
    some <$> Eval.forLoop known depth scope condition advance body

/-- Evaluating a part in a store comes to a return statement and, after it, leaves with the result
`v` and the store `u`. The statement stands where pending returns are passed on: in a block, in the
value of a statement, in a branch, or in the body, the start or the advance of a loop. -/
inductive Returns (known : List Builtin) (scope : ScopeId) (v : Value) (u : Store) :
    Nat → Part → Store → Prop where
  | ret {n : Nat} {s : Store} {e : Expr} {w : Value} (position : Position) :
      Eval.expr known n scope e s = .ok w u → w.result = v →
        Returns known scope v u (n + 1) (.stmt (.ret position e)) s
  | retValue {n : Nat} {s : Store} {e : Expr} (position : Position) :
      Returns known scope v u n (.expr e) s →
        Returns known scope v u (n + 1) (.stmt (.ret position e)) s
  | bind {n : Nat} {s : Store} {e : Expr} (position : Position) (name : Name) :
      Returns known scope v u n (.expr e) s →
        Returns known scope v u (n + 1) (.stmt (.bind position name e)) s
  | store {n : Nat} {s : Store} {e : Expr} (position : Position) (name : Name) (subscript : Expr) :
      Returns known scope v u n (.expr e) s →
        Returns known scope v u (n + 1) (.stmt (.store position name subscript e)) s
  | stmt {n : Nat} {s : Store} {e : Expr} (position : Position) :
      Returns known scope v u n (.expr e) s →
        Returns known scope v u (n + 1) (.stmt (.expr position e)) s
  | first {n : Nat} {s : Store} {statement : Stmt} (statements : List Stmt) :
      Returns known scope v u n (.stmt statement) s →
        Returns known scope v u (n + 1) (.block (statement :: statements)) s
  | later {n : Nat} {s t : Store} {statement : Stmt} {statements : List Stmt} {r : Option Value} :
      Eval.stmt known n scope statement s = .ok r t → Eval.endsBlock r = false →
        Returns known scope v u n (.block statements) t →
        Returns known scope v u (n + 1) (.block (statement :: statements)) s
  | consequence {n : Nat} {s t : Store} {condition : Expr} {c : Value} {body : Block}
      (position : Position) (alternative : Option Block) :
      Eval.expr known n scope condition s = .ok c t → c.truthy = true →
        Returns known scope v u n (.block body.body) t →
        Returns known scope v u (n + 1) (.expr (.conditional position condition body alternative)) s
  | alternative {n : Nat} {s t : Store} {condition : Expr} {c : Value} {body : Block}
      (position : Position) (consequence : Block) :
      Eval.expr known n scope condition s = .ok c t → c.truthy = false →
        Returns known scope v u n (.block body.body) t →
        Returns known scope v u (n + 1)
          (.expr (.conditional position condition consequence (some body))) s
  | whileExpr {n : Nat} {s : Store} {condition : Expr} {body : Block} (position : Position) :
      Returns known scope v u n (.whileLoop condition body.body) s →
        Returns known scope v u (n + 1) (.expr (.whileLoop position condition body)) s
  | whileBody {n : Nat} {s t : Store} {condition : Expr} {c : Value} {body : List Stmt} :
      Eval.expr known n scope condition s = .ok c t → c.truthy = true →
        Returns known scope v u n (.block body) t →
        Returns known scope v u (n + 1) (.whileLoop condition body) s
  | whileNext {n : Nat} {s t w : Store} {condition : Expr} {c : Value} {body : List Stmt}
      {r : Option Value} :
      Eval.expr known n scope condition s = .ok c t → c.truthy = true →
        Eval.block known n scope body t = .ok r w → Eval.endsBlock r = false →
        Returns known scope v u n (.whileLoop condition body) w →
        Returns known scope v u (n + 1) (.whileLoop condition body) s
  | forStart {n : Nat} {s : Store} {start : Stmt} (position : Position) (condition : Expr)
      (advance : Stmt) (body : Block) :
      Returns known scope v u n (.stmt start) s →
        Returns known scope v u (n + 1) (.expr (.forLoop position start condition advance body)) s
  | forExpr {n : Nat} {s t : Store} {start advance : Stmt} {condition : Expr} {body : Block}
      {r : Option Value} (position : Position) :
      Eval.stmt known n scope start s = .ok r t → Eval.endsBlock r = false →
        Returns known scope v u n (.forLoop condition advance body.body) t →
        Returns known scope v u (n + 1) (.expr (.forLoop position start condition advance body)) s
  | forBody {n : Nat} {s t : Store} {condition : Expr} {c : Value} {body : List Stmt}
      (advance : Stmt) :
      Eval.expr known n scope condition s = .ok c t → c.truthy = true →
        Returns known scope v u n (.block body) t →
        Returns known scope v u (n + 1) (.forLoop condition advance body) s
  | forAdvance {n : Nat} {s t w : Store} {condition : Expr} {c : Value} {advance : Stmt}
      {body : List Stmt} {r : Option Value} :
      Eval.expr known n scope condition s = .ok c t → c.truthy = true →
        Eval.block known n scope body t = .ok r w → Eval.endsBlock r = false →
        Returns known scope v u n (.stmt advance) w →
        Returns known scope v u (n + 1) (.forLoop condition advance body) s
  | forNext {n : Nat} {s t w x : Store} {condition : Expr} {c : Value} {advance : Stmt}
      {body : List Stmt} {r a : Option Value} :
      Eval.expr known n scope condition s = .ok c t → c.truthy = true →
        Eval.block known n scope body t = .ok r w → Eval.endsBlock r = false →
        Eval.stmt known n scope advance w = .ok a x → Eval.endsBlock a = false →
        Returns known scope v u n (.forLoop condition advance body) x →
        Returns known scope v u (n + 1) (.forLoop condition advance body) s

namespace Part

variable {known : List Builtin} {depth : Nat} {scope : ScopeId} {s t : Store} {v : Value}

theorem eval_expr_eq {e : Expr} :
    (Part.expr e).eval known depth scope s = .ok (some v) t ↔
      Eval.expr known depth scope e s = .ok v t := by
  rw [eval, run_map]
  cases Eval.expr known depth scope e s <;> simp

theorem eval_whileLoop_eq {condition : Expr} {body : List Stmt} :
    (Part.whileLoop condition body).eval known depth scope s = .ok (some v) t ↔
      Eval.whileLoop known depth scope condition body s = .ok v t := by
  rw [eval, run_map]
  cases Eval.whileLoop known depth scope condition body s <;> simp

theorem eval_forLoop_eq {condition : Expr} {advance : Stmt} {body : List Stmt} :
    (Part.forLoop condition advance body).eval known depth scope s = .ok (some v) t ↔
      Eval.forLoop known depth scope condition advance body s = .ok v t := by
  rw [eval, run_map]
  cases Eval.forLoop known depth scope condition advance body s <;> simp

end Part

theorem Value.toPending_eq {v w : Value} (h : w.result = v) : w.toPending = .pending v := by
  subst h
  cases w <;> rfl

/-- A return statement ends everything around it that passes pending returns on. -/
theorem Returns.eval_eq {known : List Builtin} {scope : ScopeId} {v : Value} {s u : Store}
    {n : Nat} {p : Part} (h : Returns known scope v u n p s) :
    p.eval known n scope s = .ok (some (.pending v)) u := by
  induction h with
  | ret position he hv => simp [Part.eval, Eval.stmt, he, Value.toPending_eq hv]
  | retValue position _ ih =>
    rw [Part.eval_expr_eq] at ih
    simp [Part.eval, Eval.stmt, ih, Value.toPending]
  | bind position name _ ih =>
    rw [Part.eval_expr_eq] at ih
    simp [Part.eval, Eval.stmt, ih, Value.isPending]
  | store position name subscript _ ih =>
    rw [Part.eval_expr_eq] at ih
    simp [Part.eval, Eval.stmt, ih, Value.isPending]
  | stmt position _ ih =>
    rw [Part.eval_expr_eq] at ih
    simp [Part.eval, Eval.stmt, ih]
  | @first n s statement statements _ ih =>
    change Eval.block known (n + 1) scope (statement :: statements) s = _
    by_cases hss : statements = []
    · rw [hss, Eval.block_singleton]
      exact ih
    · rw [Eval.block_cons statement hss, show Eval.stmt known n scope statement s = _ from ih]
      rfl
  | @later n s t statement statements r hs hr _ ih =>
    have hss : statements ≠ [] := by
      rintro rfl
      cases n <;> cases ih
    change Eval.block known (n + 1) scope (statement :: statements) s = _
    rw [Eval.block_cons statement hss, hs]
    simpa [hr, Part.eval] using ih
  | consequence position alternative hc ht _ ih =>
    rw [Part.eval] at ih
    simp [Part.eval_expr_eq, Eval.expr, hc, ht, ih]
  | alternative position consequence hc ht _ ih =>
    rw [Part.eval] at ih
    simp [Part.eval_expr_eq, Eval.expr, hc, ht, ih]
  | whileExpr position _ ih =>
    rw [Part.eval_whileLoop_eq] at ih
    simp [Part.eval_expr_eq, Eval.expr, ih]
  | whileBody hc ht _ ih =>
    rw [Part.eval] at ih
    simp [Part.eval_whileLoop_eq, Eval.whileLoop, hc, ht, ih]
  | whileNext hc ht hb hr _ ih =>
    rw [Part.eval_whileLoop_eq] at ih
    simp only [Part.eval_whileLoop_eq, Eval.whileLoop, run_bind, hc, ht, if_true, hb]
    split
    next => cases hr
    next => exact ih
  | forStart position condition advance body _ ih =>
    rw [Part.eval] at ih
    simp [Part.eval_expr_eq, Eval.expr, ih]
  | forExpr position hs hr _ ih =>
    rw [Part.eval_forLoop_eq] at ih
    simp only [Part.eval_expr_eq, Eval.expr, run_bind, hs]
    split
    next => cases hr
    next => exact ih
  | forBody advance hc ht _ ih =>
    rw [Part.eval] at ih
    simp [Part.eval_forLoop_eq, Eval.forLoop, hc, ht, ih]
  | forAdvance hc ht hb hr _ ih =>
    rw [Part.eval] at ih
    simp only [Part.eval_forLoop_eq, Eval.forLoop, run_bind, hc, ht, if_true, hb]
    split
    next => cases hr
    next => simp [ih]
  | forNext hc ht hb hr ha hra _ ih =>
    rw [Part.eval_forLoop_eq] at ih
    simp only [Part.eval_forLoop_eq, Eval.forLoop, run_bind, hc, ht, if_true, hb]
    split
    next => cases hr
    next =>
      rw [run_bind, ha]
      dsimp only
      split
      next => cases hra
      next => exact ih

/-- A return inside a function ends the call with its result. -/
theorem Returns.apply_eq {known : List Builtin} {v : Value} {s u : Store} {n : Nat}
    {id : ClosureId} {args : List Value}
    (h : Returns known ⟨s.scopes.size⟩ v u n (.block (s.closure id).body.body)
      (s.enter (s.closure id) args)) (caller : ScopeId) :
    Eval.apply known (n + 1) caller (.function id) args s = .ok v u := by
  have hb : Eval.block known n ⟨s.scopes.size⟩ (s.closure id).body.body
      (s.enter (s.closure id) args) = _ := h.eval_eq
  rw [Eval.apply]
  change (Eval.block known n ⟨s.scopes.size⟩ (s.closure id).body.body >>= fun r ↦
    pure ((r.map Value.result).getD .null)) (s.enter (s.closure id) args) = _
  rw [run_bind, hb]
  rfl

end Treewalk
