import Treewalk.Proofs.Eval.Course
import Treewalk.Proofs.Eval.Independence

/-!
# The two kinds of loop

A `for` loop does what its start and a `while` loop do, one after the other, where the body of the
`while` loop ends with the advance (`Stmt.whileForm`). The two loops are evaluated each in its own
way and reach their parts under different bounds on the depth, so they are compared by what they
come to under some bound (`SameEnd`): the same result, pending returns among them, or the same
error, with the same store, or no end at all.

A turn of either loop evaluates the body and then the advance, unless the body ended in a pending
return (`Eval.turn`). What a loop does under one bound, the other does under another, unless the
first bound is used up: a step lemma for a turn, and an induction on the bound for the loop.
-/

set_option autoImplicit false
set_option relaxedAutoImplicit false

namespace Treewalk

/-- Two evaluations come to the same, each under the bounds that are large enough for it: to the
same result or error, with the same store, or both use up every bound. -/
structure SameEnd {α : Type} (m n : Nat → Eval α) (s : Store) : Prop where
  result : ∀ (a : α) (t : Store),
    (∃ depth, m depth s = .ok a t) ↔ ∃ depth, n depth s = .ok a t
  error : ∀ (e : RuntimeError) (t : Store),
    (∃ depth, m depth s = .error (.failed e) t) ↔ ∃ depth, n depth s = .error (.failed e) t
  endless : (∀ depth, ∃ t, m depth s = .error .exhausted t) ↔
    ∀ depth, ∃ t, n depth s = .error .exhausted t

/-- The statements that a `for` loop stands for. -/
def Stmt.whileForm (position : Position) (start : Stmt) (condition : Expr) (advance : Stmt)
    (body : Block) : List Stmt :=
  [start, .expr position (.whileLoop position condition
    (.mk body.position (body.body ++ [advance])))]

/-! ### Evaluations that outlast others -/

theorem AgreesUnless.trans {E : Stop → Prop} {α : Type} {m n o : Eval α} (h : AgreesUnless E m n)
    (h' : AgreesUnless E n o) : AgreesUnless E m o := by
  intro s
  rcases h s with hstop | hs
  · exact .inl hstop
  · rcases h' s with ⟨e, t, he, ht⟩ | hs'
    · exact .inl ⟨e, t, he, hs.symm.trans ht⟩
    · exact .inr (hs'.trans hs)

/-- Whatever bound the evaluation `m` ends under, there is one under which `n` ends in the same
way. -/
def Outlasts {α : Type} (m n : Nat → Eval α) : Prop :=
  ∀ depth, ∃ depth', AgreesUnless (· = Stop.exhausted) (m depth) (n depth')

namespace Outlasts

variable {α : Type} {m n : Nat → Eval α} {s : Store}

theorem exists_eq (h : Outlasts m n) {r : EStateM.Result Stop Store α}
    (hr : ∀ t, r ≠ .error .exhausted t) (hm : ∃ depth, m depth s = r) :
    ∃ depth, n depth s = r := by
  obtain ⟨depth, hm⟩ := hm
  obtain ⟨depth', h⟩ := h depth
  rcases h s with ⟨_, t, rfl, ht⟩ | hsame
  · exact absurd (hm.symm.trans ht) (hr t)
  · exact ⟨depth', hsame.trans hm⟩

theorem endless (h : Outlasts m n) (hn : ∀ depth, ∃ t, n depth s = .error .exhausted t)
    (depth : Nat) : ∃ t, m depth s = .error .exhausted t := by
  obtain ⟨depth', h⟩ := h depth
  rcases h s with ⟨_, u, rfl, hu⟩ | hsame
  · exact ⟨u, hu⟩
  · obtain ⟨u, hu⟩ := hn depth'
    exact ⟨u, hsame.symm.trans hu⟩

theorem sameEnd (h : Outlasts m n) (h' : Outlasts n m) (s : Store) : SameEnd m n s where
  result _ _ := ⟨h.exists_eq nofun, h'.exists_eq nofun⟩
  error _ _ := ⟨h.exists_eq nofun, h'.exists_eq nofun⟩
  endless := ⟨h'.endless, h.endless⟩

end Outlasts

namespace Eval

/-! ### Turns -/

variable [Host] {known : List Builtin} {depth depth' : Nat} {scope : ScopeId}

/-- Goes on after a statement or a block, unless it ended in a pending return. -/
def goOn (r : Option Value) (next : Eval Value) : Eval Value :=
  match r with
  | some (.pending v) => return .pending v
  | _ => next

/-- A turn of a loop: the body, and the advance after it. Each has its own bound. -/
def turn (known : List Builtin) (depth depth' : Nat) (scope : ScopeId) (body : List Stmt)
    (advance : Stmt) : Eval (Option Value) := do
  let r ← block known depth scope body
  if endsBlock r then return r else stmt known depth' scope advance

theorem whileLoop_succ (condition : Expr) (body : List Stmt) :
    whileLoop known (depth + 1) scope condition body = do
      let c ← expr known depth scope condition
      if c.truthy then
        let r ← block known depth scope body
        goOn r (whileLoop known depth scope condition body)
      else return .null :=
  rfl

/-- The pending return of a body ends the loop as that of a turn. -/
theorem turn_bind_goOn (body : List Stmt) (advance : Stmt) (next : Eval Value) :
    (turn known depth depth' scope body advance >>= fun r ↦ goOn r next) =
      block known depth scope body >>= fun r ↦
        goOn r (stmt known depth' scope advance >>= fun a ↦ goOn a next) := by
  funext s
  rw [run_bind, turn, run_bind, run_bind]
  cases block known depth scope body s with
  | error e t => rfl
  | ok r t =>
    rcases r with _ | v
    · rfl
    · cases v <;> rfl

theorem forLoop_succ (condition : Expr) (advance : Stmt) (body : List Stmt) :
    forLoop known (depth + 1) scope condition advance body = do
      let c ← expr known depth scope condition
      if c.truthy then
        let r ← turn known depth depth scope body advance
        goOn r (forLoop known depth scope condition advance body)
      else return .null := by
  simp only [turn_bind_goOn]
  rfl

theorem block_append_advance (body : List Stmt) (advance : Stmt) :
    block known (depth + body.length + 1) scope (body ++ [advance]) =
      turn known (depth + body.length + 1) depth scope body advance := by
  funext s
  have hbound : depth + body.length + 1 - body.length = depth + 1 := by omega
  rw [block_append body (List.cons_ne_nil advance []), turn, run_bind, hbound, block_singleton]
  cases block known (depth + body.length + 1) scope body s with
  | error e t => rfl
  | ok r t => cases hr : endsBlock r <;> simp [hr]

/-! ### Larger bounds -/

theorem expr_agrees (hle : depth ≤ depth') (e : Expr) :
    AgreesUnless (· = Stop.exhausted) (expr known depth scope e) (expr known depth' scope e) := by
  have h := (relatedAt_of_le known hle).expr scope e
  rwa [Expr.relocate_id] at h

theorem block_agrees (hle : depth ≤ depth') (ss : List Stmt) :
    AgreesUnless (· = Stop.exhausted) (block known depth scope ss)
      (block known depth' scope ss) := by
  have h := (relatedAt_of_le known hle).block scope ss
  rwa [Stmt.relocateList_id] at h

theorem stmt_agrees (hle : depth ≤ depth') (statement : Stmt) :
    AgreesUnless (· = Stop.exhausted) (stmt known depth scope statement)
      (stmt known depth' scope statement) := by
  have h := (relatedAt_of_le known hle).stmt scope statement
  rwa [Stmt.relocate_id] at h

theorem forLoop_agrees (hle : depth ≤ depth') (condition : Expr) (advance : Stmt)
    (body : List Stmt) :
    AgreesUnless (· = Stop.exhausted) (forLoop known depth scope condition advance body)
      (forLoop known depth' scope condition advance body) := by
  have h := (relatedAt_of_le known hle).forLoop scope condition advance body
  rwa [Expr.relocate_id, Stmt.relocate_id, Stmt.relocateList_id] at h

theorem turn_agrees {bound bound' : Nat} (hle : depth ≤ depth') (hle' : bound ≤ bound')
    (body : List Stmt) (advance : Stmt) :
    AgreesUnless (· = Stop.exhausted) (turn known depth bound scope body advance)
      (turn known depth' bound' scope body advance) := by
  have hrelation := agreesUnless_relation (· = Stop.exhausted)
  exact hrelation.bind (block_agrees hle body) fun r ↦
    hrelation.ite (hrelation.pure r) (stmt_agrees hle' advance)

omit [Host] in
theorem goOn_agrees {next next' : Eval Value} (h : AgreesUnless (· = Stop.exhausted) next next')
    (r : Option Value) : AgreesUnless (· = Stop.exhausted) (goOn r next) (goOn r next') := by
  unfold goOn
  split
  · exact fun _ ↦ .inr rfl
  · exact h

/-! ### Loops -/

/-- A `while` loop with the advance in its body goes as far as a `for` loop, under a bound that also
covers the way through the body. -/
theorem forLoop_agrees_whileLoop (condition : Expr) (advance : Stmt) (body : List Stmt) :
    AgreesUnless (· = Stop.exhausted) (forLoop known depth scope condition advance body)
      (whileLoop known (depth + body.length + 1) scope condition (body ++ [advance])) := by
  have hrelation := agreesUnless_relation (· = Stop.exhausted)
  induction depth with
  | zero => exact fun s ↦ .inl ⟨.exhausted, s, rfl, by rw [forLoop]; rfl⟩
  | succ depth ih =>
    rw [Nat.add_right_comm depth 1, forLoop_succ, whileLoop_succ, block_append_advance]
    refine hrelation.bind (expr_agrees (by omega) condition) fun c ↦ ?_
    refine hrelation.ite (hrelation.bind ?_ (goOn_agrees ih)) (hrelation.pure _)
    exact turn_agrees (by omega) (Nat.le_refl depth) body advance

/-- A `for` loop goes as far as the `while` loop with the advance in its body. -/
theorem whileLoop_agrees_forLoop (condition : Expr) (advance : Stmt) (body : List Stmt) :
    AgreesUnless (· = Stop.exhausted)
      (whileLoop known depth scope condition (body ++ [advance]))
      (forLoop known (depth + body.length + 1) scope condition advance body) := by
  have hrelation := agreesUnless_relation (· = Stop.exhausted)
  induction depth with
  | zero => exact fun s ↦ .inl ⟨.exhausted, s, rfl, by rw [whileLoop]; rfl⟩
  | succ depth ih =>
    have hturn : AgreesUnless (· = Stop.exhausted)
        (block known depth scope (body ++ [advance]))
        (turn known (depth + body.length + 1) (depth + body.length + 1) scope body advance) := by
      have hlarger : AgreesUnless (· = Stop.exhausted)
          (block known depth scope (body ++ [advance]))
          (turn known (depth + body.length + 1) depth scope body advance) := by
        rw [← block_append_advance]
        exact block_agrees (by omega) _
      exact hlarger.trans (turn_agrees (Nat.le_refl _) (by omega) body advance)
    rw [Nat.add_right_comm depth 1, whileLoop_succ, forLoop_succ]
    refine hrelation.bind (expr_agrees (by omega) condition) fun c ↦ ?_
    exact hrelation.ite (hrelation.bind hturn (goOn_agrees ih)) (hrelation.pure _)

/-! ### The start of a loop -/

theorem expr_forLoop (position : Position) (start : Stmt) (condition : Expr) (advance : Stmt)
    (body : Block) :
    expr known (depth + 1) scope (.forLoop position start condition advance body) =
      stmt known depth scope start >>= fun r ↦
        goOn r (forLoop known depth scope condition advance body.body) :=
  rfl

/-- The `while` form stops after the start or goes on with its loop, which is three levels down. -/
theorem block_whileForm (position : Position) (start : Stmt) (condition : Expr) (advance : Stmt)
    (body : Block) :
    block known (depth + 4) scope (Stmt.whileForm position start condition advance body) =
      some <$> (stmt known (depth + 3) scope start >>= fun r ↦
        goOn r (whileLoop known depth scope condition (body.body ++ [advance]))) := by
  funext s
  rw [Stmt.whileForm, block_cons start (List.cons_ne_nil _ _), run_map, run_bind]
  cases stmt known (depth + 3) scope start s with
  | error e t => rfl
  | ok r t =>
    rcases r with _ | v
    · rfl
    · cases v <;> rfl

/-- The start is the same in both forms, so they agree if what they do after it agrees. -/
theorem start_agrees {next next' : Eval Value} (h : AgreesUnless (· = Stop.exhausted) next next')
    (hle : depth ≤ depth') (start : Stmt) :
    AgreesUnless (· = Stop.exhausted)
      (some <$> (stmt known depth scope start >>= fun r ↦ goOn r next))
      (some <$> (stmt known depth' scope start >>= fun r ↦ goOn r next')) := by
  have hrelation := agreesUnless_relation (· = Stop.exhausted)
  exact hrelation.map (hrelation.bind (stmt_agrees hle start) (goOn_agrees h)) some

/-- In every store, a `for` loop comes to the value, the pending return or the error of the block
that evaluates its start and then a `while` loop whose body ends with the advance, and it leaves the
same store; or neither comes to an end. -/
theorem forLoop_sameEnd_whileForm (known : List Builtin) (scope : ScopeId)
    (position : Position) (start : Stmt) (condition : Expr) (advance : Stmt) (body : Block)
    (s : Store) :
    SameEnd
      (fun depth ↦ some <$> expr known depth scope
        (.forLoop position start condition advance body))
      (fun depth ↦ block known depth scope
        (Stmt.whileForm position start condition advance body)) s := by
  refine Outlasts.sameEnd (fun depth ↦ ?_) (fun depth ↦ ?_) s
  · cases depth with
    | zero => exact ⟨0, fun s ↦ .inl ⟨.exhausted, s, rfl, by rw [expr]; rfl⟩⟩
    | succ depth =>
      refine ⟨depth + body.body.length + 1 + 4, ?_⟩
      rw [expr_forLoop, block_whileForm]
      exact start_agrees (forLoop_agrees_whileLoop condition advance body.body) (by omega) start
  · refine ⟨depth + body.body.length + 1 + 3 + 1, ?_⟩
    have hblock : AgreesUnless (· = Stop.exhausted)
        (block known depth scope (Stmt.whileForm position start condition advance body))
        (block known (depth + 4) scope (Stmt.whileForm position start condition advance body)) :=
      block_agrees (by omega) _
    rw [block_whileForm] at hblock
    refine hblock.trans (start_agrees ?_ (by omega) start)
    exact (whileLoop_agrees_forLoop condition advance body.body).trans
      (forLoop_agrees (by omega) condition advance body.body)

end Eval

end Treewalk
