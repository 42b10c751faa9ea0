import Treewalk.Program
import Treewalk.Proofs.Outcome
import Treewalk.Proofs.Store.Evolution

/-!
# The course of an evaluation

Statements are evaluated one after the other until one fails or ends in a pending return. So the
evaluation of a list of statements is that of a first part and, unless it stopped there, that of the
rest in the store that the first part left (`Eval.block_append`); and where it fails, one statement
failed, all before it went through and none behind it had a part (`Eval.exists_of_block_error`).

`Visits` are the stores that evaluation can pass through. Every store between the start and the end
of an evaluation is the one that is left by evaluating a part of the program, completely or cut off,
or the one in which the body of a called function starts.
-/

set_option autoImplicit false
set_option relaxedAutoImplicit false

namespace Treewalk

/-! ### Statements one after the other -/

namespace Eval

variable [Host] {known : List Builtin} {depth : Nat} {scope : ScopeId}

theorem block_zero (ss : List Stmt) (s : Store) :
    block known 0 scope ss s = .error .exhausted s := by
  rw [block]
  rfl

theorem block_nil (s : Store) : block known (depth + 1) scope [] s = .ok none s :=
  rfl

theorem block_singleton (statement : Stmt) :
    block known (depth + 1) scope [statement] = stmt known depth scope statement := by
  rw [block]

theorem block_cons (statement : Stmt) {ss : List Stmt} (h : ss ≠ []) (s : Store) :
    block known (depth + 1) scope (statement :: ss) s =
      match stmt known depth scope statement s with
      | .ok r t => if endsBlock r then .ok r t else block known depth scope ss t
      | .error e t => .error e t := by
  rw [block, run_bind]
  · cases stmt known depth scope statement s with
    | ok r t => cases hr : endsBlock r <;> simp [hr]
    | error e t => rfl
  · exact h

/-- A statement that fails, before any others. -/
theorem block_cons_error {statement : Stmt} {s t : Store} {e : Stop}
    (h : stmt known depth scope statement s = .error e t) (ss : List Stmt) :
    block known (depth + 1) scope (statement :: ss) s = .error e t := by
  by_cases hss : ss = []
  · rw [hss, block_singleton, h]
  · rw [block_cons statement hss, h]

/-- A statement that goes through, before others that do. -/
theorem exists_block_cons {statement : Stmt} {ss : List Stmt} {s t u : Store}
    {r r' : Option Value} (h : stmt known depth scope statement s = .ok r t)
    (hr : endsBlock r = false) (hs : block known depth scope ss t = .ok r' u)
    (hr' : endsBlock r' = false) :
    ∃ r'', block known (depth + 1) scope (statement :: ss) s = .ok r'' u ∧
      endsBlock r'' = false := by
  by_cases hss : ss = []
  · subst hss
    cases depth with
    | zero => cases hs
    | succ depth =>
      rw [block_nil] at hs
      cases hs
      exact ⟨r, by rw [block_singleton, h], hr⟩
  · exact ⟨r', by simp [block_cons statement hss, h, hr, hs], hr'⟩

/-- Statements are evaluated after others in the store that those leave, unless they fail or end in
a pending return. -/
theorem block_append (ss : List Stmt) {rest : List Stmt} (hr : rest ≠ []) (s : Store) :
    block known depth scope (ss ++ rest) s =
      match block known depth scope ss s with
      | .ok r t => if endsBlock r then .ok r t else block known (depth - ss.length) scope rest t
      | .error e t => .error e t := by
  induction ss generalizing depth s with
  | nil =>
    cases depth with
    | zero => simp [block_zero]
    | succ depth => rfl
  | cons statement ss ih =>
    cases depth with
    | zero => simp [block_zero]
    | succ depth =>
      rw [List.cons_append, block_cons statement (by simp [hr])]
      cases ss with
      | nil => simp [block_singleton]
      | cons next ss =>
        rw [block_cons statement (List.cons_ne_nil next ss)]
        cases stmt known depth scope statement s with
        | error e t => rfl
        | ok r t =>
          cases hend : endsBlock r with
          | true => simp [hend]
          | false => simpa [hend] using ih t

/-- Where statements fail, one of them fails, after all before it went through. -/
theorem exists_of_block_error {ss : List Stmt} {s u : Store} {e : RuntimeError}
    (h : block known depth scope ss s = .error (.failed e) u) :
    ∃ (before : List Stmt) (statement : Stmt) (rest : List Stmt) (r : Option Value) (t : Store),
      ss = before ++ statement :: rest ∧
      block known depth scope before s = .ok r t ∧ endsBlock r = false ∧
      before.length < depth ∧
      stmt known (depth - before.length - 1) scope statement t = .error (.failed e) u := by
  induction ss generalizing depth s with
  | nil => cases depth <;> cases h
  | cons statement ss ih =>
    cases depth with
    | zero => simp [block_zero] at h
    | succ depth =>
      by_cases hss : ss = []
      · subst hss
        rw [block_singleton] at h
        exact ⟨[], statement, [], none, s, rfl, block_nil s, rfl, Nat.succ_pos _, h⟩
      · rw [block_cons statement hss] at h
        cases hst : stmt known depth scope statement s with
        | error f t =>
          simp only [hst] at h
          exact ⟨[], statement, ss, none, s, rfl, block_nil s, rfl, Nat.succ_pos _, hst.trans h⟩
        | ok r t =>
          cases hend : endsBlock r with
          | true => simp [hst, hend] at h
          | false =>
            have hrest : block known depth scope ss t = .error (.failed e) u := by
              simpa [hst, hend] using h
            obtain ⟨before, failing, rest, r', t', rfl, hb, hr', hlt, hf⟩ := ih hrest
            obtain ⟨r'', hb', hr''⟩ := exists_block_cons hst hend hb hr'
            refine ⟨statement :: before, failing, rest, r'', t', rfl, hb', hr'', ?_, ?_⟩
            · exact Nat.succ_lt_succ hlt
            · rwa [List.length_cons, Nat.add_sub_add_right]

end Eval

/-! ### Stores on the way -/

/-- The stores that the evaluation of code can pass through, starting from `s`. The code is made of
expressions with the property `E` and of statements with the property `S`. -/
inductive Visits (known : List Builtin) (E : Expr → Prop) (S : Stmt → Prop) (s : Store) :
    Store → Prop where
  | start : Visits known E S s s
  | expr {t : Store} (depth : Nat) (scope : ScopeId) {e : Expr} :
      E e → Visits known E S s t → Visits known E S s (after (Eval.expr known depth scope e) t)
  | stmt {t : Store} (depth : Nat) (scope : ScopeId) {statement : Stmt} :
      S statement → Visits known E S s t →
        Visits known E S s (after (Eval.stmt known depth scope statement) t)
  | program {t : Store} (depth : Nat) (scope : ScopeId) {program : Program} :
      (∀ statement ∈ program, S statement) → Visits known E S s t →
        Visits known E S s (after (Eval.program known depth scope program) t)
  -- The parameters of a called function are bound to the values of the arguments.
  | enter {t u : Store} (depth : Nat) (scope : ScopeId) {position : Position} {callee : Expr}
      {arguments : List Expr} {values : List Value} (id : ClosureId) :
      E (.call position callee arguments) → Visits known E S s t →
        Eval.exprs known depth scope arguments t = .ok values u →
        Visits known E S s (u.enter (u.closure id) values)

end Treewalk
