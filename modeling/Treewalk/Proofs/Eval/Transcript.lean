import Treewalk.Proofs.Eval.Chains
import Treewalk.Proofs.Eval.Effects

/-!
# What is written, in its order

`Transcript` gives the texts that an evaluation writes, one for each call of a builtin that writes,
in the order in which the calls are made: those of the first part, and then, from the store that it
leaves, those of the next, up to the first failure. A call of a function adds the texts of its body.

In a rooted store these are the texts that are added to the one sink, and to no other. So from one
scope that lies in no other (`Store.withOutput`), whatever is evaluated, called and enclosed on the
way (`Reaches`), the scopes stay a tree with one sink, and the sink holds what was in it at first
and then everything that was written.
-/

set_option autoImplicit false
set_option relaxedAutoImplicit false

namespace Treewalk

/-! ### The texts of an evaluation -/

/-- The text that a call of a builtin writes: that of its arguments, if it is a builtin that writes,
takes as many arguments, and all of them have a text. -/
def Builtin.said (b : Builtin) (args : List Value) (s : Store) : List String :=
  match b.operation.layout? with
  | some layout =>
    if b.arity.accepts args.length then ((args.mapM s.inspect?).map layout).toList else []
  | none => []

namespace Transcript

/-- The texts of a computation, and then those of the one that goes on with its result. -/
def inTurn {α : Type} (m : Eval α) (said : Store → List String) (next : α → Store → List String)
    (s : Store) : List String :=
  match m s with
  | .ok a t => said s ++ next a t
  | .error _ _ => said s

mutual

/-- What evaluating an expression writes. -/
def expr (known : List Builtin) : Nat → ScopeId → Expr → Store → List String
  | 0, _, _, _ => []
  | depth + 1, scope, e, s =>
    match e with
    | .unary _ _ operand => expr known depth scope operand s
    | .binary _ _ left right | .index _ left right | .range _ _ left right =>
      inTurn (Eval.expr known depth scope left) (expr known depth scope left)
        (fun _ ↦ expr known depth scope right) s
    | .conditional _ condition consequence alternative =>
      inTurn (Eval.expr known depth scope condition) (expr known depth scope condition)
        (fun c t ↦
          if c.truthy then block known depth scope consequence.body t
          else
            match alternative with
            | some other => block known depth scope other.body t
            | none => []) s
    | .call _ callee arguments =>
      inTurn (Eval.expr known depth scope callee) (expr known depth scope callee)
        (fun f ↦ inTurn (Eval.exprs known depth scope arguments)
          (exprs known depth scope arguments) fun vs ↦ apply known depth scope f vs) s
    | .array _ elements => exprs known depth scope elements s
    | .hash _ pairs => entries known depth scope pairs s
    | .slice _ target start stop =>
      inTurn (Eval.expr known depth scope target) (expr known depth scope target)
        (fun _ ↦ inTurn (Eval.optional known depth scope start) (optional known depth scope start)
          fun _ ↦ optional known depth scope stop) s
    | .whileLoop _ condition body => whileLoop known depth scope condition body.body s
    | .forLoop _ start condition advance body =>
      inTurn (Eval.stmt known depth scope start) (stmt known depth scope start)
        (fun r t ↦
          if Eval.endsBlock r then [] else forLoop known depth scope condition advance body.body t)
        s
    | .name .. | .int .. | .float .. | .str .. | .bool .. | .function .. | .step .. => []

/-- What evaluating an expression writes, if there is one. -/
def optional (known : List Builtin) : Nat → ScopeId → Option Expr → Store → List String
  | 0, _, _, _ => []
  | _ + 1, _, none, _ => []
  | depth + 1, scope, some e, s => expr known depth scope e s

/-- What evaluating expressions from left to right writes. -/
def exprs (known : List Builtin) : Nat → ScopeId → List Expr → Store → List String
  | 0, _, _, _ => []
  | _ + 1, _, [], _ => []
  | depth + 1, scope, e :: es, s =>
    inTurn (Eval.expr known depth scope e) (expr known depth scope e)
      (fun _ ↦ exprs known depth scope es) s

/-- What evaluating the pairs of a hash literal writes. Nothing more is written after a value that
cannot be a key. -/
def entries (known : List Builtin) : Nat → ScopeId → List (Expr × Expr) → Store → List String
  | 0, _, _, _ => []
  | _ + 1, _, [], _ => []
  | depth + 1, scope, (k, e) :: pairs, s =>
    inTurn (Eval.expr known depth scope k) (expr known depth scope k)
      (fun key ↦ inTurn (Eval.ofExcept (Eval.keyOf key)) (fun _ ↦ [])
        fun _ ↦ inTurn (Eval.expr known depth scope e) (expr known depth scope e)
          fun _ ↦ entries known depth scope pairs) s

/-- What evaluating statements writes. -/
def block (known : List Builtin) : Nat → ScopeId → List Stmt → Store → List String
  | 0, _, _, _ => []
  | _ + 1, _, [], _ => []
  | depth + 1, scope, [statement], s => stmt known depth scope statement s
  | depth + 1, scope, statement :: statements, s =>
    inTurn (Eval.stmt known depth scope statement) (stmt known depth scope statement)
      (fun r t ↦ if Eval.endsBlock r then [] else block known depth scope statements t) s

/-- What evaluating a statement writes. -/
def stmt (known : List Builtin) : Nat → ScopeId → Stmt → Store → List String
  | 0, _, _, _ => []
  | depth + 1, scope, statement, s =>
    match statement with
    | .bind _ _ e | .ret _ e | .expr _ e => expr known depth scope e s
    | .store _ name subscript e =>
      inTurn (Eval.expr known depth scope e) (expr known depth scope e)
        (fun v t ↦
          if v.isPending then []
          else inTurn (Eval.binding scope name.text) (fun _ ↦ [])
            (fun _ ↦ expr known depth scope subscript) t) s
    | .comment .. => []

/-- What the turns of a loop write. -/
def whileLoop (known : List Builtin) : Nat → ScopeId → Expr → List Stmt → Store → List String
  | 0, _, _, _, _ => []
  | depth + 1, scope, condition, body, s =>
    inTurn (Eval.expr known depth scope condition) (expr known depth scope condition)
      (fun c t ↦
        if c.truthy then
          inTurn (Eval.block known depth scope body) (block known depth scope body)
            (fun r u ↦
              if Eval.endsBlock r then [] else whileLoop known depth scope condition body u) t
        else []) s

/-- What the turns of a loop with an advance write. -/
def forLoop (known : List Builtin) :
    Nat → ScopeId → Expr → Stmt → List Stmt → Store → List String
  | 0, _, _, _, _, _ => []
  | depth + 1, scope, condition, advance, body, s =>
    inTurn (Eval.expr known depth scope condition) (expr known depth scope condition)
      (fun c t ↦
        if c.truthy then
          inTurn (Eval.block known depth scope body) (block known depth scope body)
            (fun r u ↦
              if Eval.endsBlock r then []
              else inTurn (Eval.stmt known depth scope advance) (stmt known depth scope advance)
                (fun a w ↦
                  if Eval.endsBlock a then []
                  else forLoop known depth scope condition advance body w) u) t
        else []) s

/-- What a call writes: the text of the builtin, or what the body of the function writes. -/
def apply (known : List Builtin) : Nat → ScopeId → Value → List Value → Store → List String
  | 0, _, _, _, _ => []
  | depth + 1, _, callee, args, s =>
    match callee with
    | .function id =>
      block known depth ⟨s.scopes.size⟩ (s.closure id).body.body (s.enter (s.closure id) args)
    | .builtin b => b.said args s
    | _ => []

end

end Transcript

/-! ### What is heard at the sink -/

/-- A rooted store with a scope in it. -/
structure Store.RootedAt (o : SinkId) (scope : ScopeId) (s : Store) : Prop where
  rooted : s.Rooted o
  scope : scope.index < s.scopes.size

/-- The store `t`, which is rooted, comes after `s`: scopes were added, the texts were added to the
sink in their order, and other sinks are as they were. -/
structure Heard (o : SinkId) (s : Store) (said : List String) (t : Store) : Prop where
  rooted : t.Rooted o
  links : s.links <+: t.links
  sinks : t.sinks = s.sinks.modify o.index (· ++ String.join said)

/-- However a computation ends, it adds the texts to the sink. -/
def Tells {α : Type} (o : SinkId) (s : Store) (said : List String) (m : Eval α) : Prop :=
  Ensures m s (fun _ t ↦ Heard o s said t) fun _ t ↦ Heard o s said t

section Rules

variable {α β : Type} {o : SinkId} {scope : ScopeId} {s t u : Store} {said more : List String}

theorem Store.size_scopes_le_of_links (h : s.links <+: t.links) :
    s.scopes.size ≤ t.scopes.size := by
  simpa [Store.links] using h.length_le

namespace Heard

theorem of_sinks_eq (ht : t.Rooted o) (hlinks : s.links <+: t.links) (h : t.sinks = s.sinks) :
    Heard o s [] t := by
  refine ⟨ht, hlinks, ?_⟩
  rw [h]
  refine Array.ext_getElem? fun i ↦ ?_
  simp [Array.getElem?_modify]

theorem refl (hs : s.Rooted o) : Heard o s [] s :=
  of_sinks_eq hs (List.prefix_refl _) rfl

theorem trans (h : Heard o s said t) (h' : Heard o t more u) : Heard o s (said ++ more) u := by
  refine ⟨h'.rooted, h.links.trans h'.links, ?_⟩
  rw [h'.sinks, h.sinks, String.join_append]
  refine Array.ext_getElem? fun i ↦ ?_
  by_cases hi : o.index = i
  · cases hsink : s.sinks[i]? <;> simp [Array.getElem?_modify, hi, hsink, String.append_assoc]
  · simp [Array.getElem?_modify, hi]

theorem rootedAt (h : Heard o s said t) (hs : s.RootedAt o scope) : t.RootedAt o scope :=
  ⟨h.rooted, Nat.lt_of_lt_of_le hs.scope (Store.size_scopes_le_of_links h.links)⟩

/-- A change of the cells is not heard. -/
theorem cells (hs : s.Rooted o) (cells : Array Cell) : Heard o s [] { s with cells := cells } :=
  of_sinks_eq ⟨hs.outer, hs.sink, hs.closures, hs.nonempty⟩ (List.prefix_refl _) rfl

theorem bind (hs : s.Rooted o) (id : ScopeId) (name : String) (v : Value) :
    Heard o s [] (s.bind id name v) :=
  of_sinks_eq (hs.bind id name v) (s.links_bind id name v ▸ List.prefix_refl _) rfl

theorem close (hs : s.RootedAt o scope) (parameters : List Name) (body : Block) :
    Heard o s [] (s.close ⟨parameters, body, scope⟩).2 :=
  of_sinks_eq (hs.rooted.close parameters body hs.scope) (List.prefix_refl _) rfl

theorem enclose (hs : s.RootedAt o scope) : Heard o s [] (s.enclose scope).2 :=
  of_sinks_eq (hs.rooted.enclose hs.scope) (s.links_enclose scope ▸ List.prefix_append _ _) rfl

theorem enter (hs : s.Rooted o) (id : ClosureId) (args : List Value) :
    Heard o s [] (s.enter (s.closure id) args) := by
  refine of_sinks_eq (hs.enter (hs.closure id) args) ?_ (Store.sinks_bindAll ..)
  rw [Store.links_enter]
  exact List.prefix_append _ _

theorem write (hs : s.RootedAt o scope) (text : String) :
    Heard o s [text] (s.write scope text) := by
  refine ⟨hs.rooted.write scope text, List.prefix_refl _, ?_⟩
  rw [Store.write, hs.rooted.sinkOf hs.scope]
  simp

end Heard

namespace Tells

variable {m : Eval α}

protected theorem pure (hs : s.Rooted o) (a : α) : Tells o s [] (pure a) :=
  Heard.refl hs

protected theorem throw (hs : s.Rooted o) (e : Stop) : Tells o s [] (throw e : Eval α) :=
  Heard.refl hs

theorem fail (hs : s.Rooted o) (e : RuntimeError) : Tells o s [] (Eval.fail e : Eval α) :=
  .throw hs _

theorem ofExcept (hs : s.Rooted o) (x : Except RuntimeError α) :
    Tells o s [] (Eval.ofExcept x) := by
  cases x with
  | ok a => exact .pure hs a
  | error e => exact .fail hs e

protected theorem bind {said : Store → List String} {next : α → Store → List String}
    {f : α → Eval β} (hs : s.RootedAt o scope) (hm : Tells o s (said s) m)
    (hf : ∀ a t, t.RootedAt o scope → Tells o t (next a t) (f a)) :
    Tells o s (Transcript.inTurn m said next s) (m >>= f) := by
  unfold Tells Ensures at hm ⊢
  rw [run_bind, Transcript.inTurn]
  cases h : m s with
  | error e t =>
    rw [h] at hm
    exact hm
  | ok a t =>
    rw [h] at hm
    exact Ensures.imp (hf a t (hm.rootedAt hs)) (fun _ _ hu ↦ hm.trans hu) fun _ _ hu ↦ hm.trans hu

/-- What goes on without writing adds nothing. -/
theorem bind_silent {f : α → Eval β} (hs : s.RootedAt o scope) (hm : Tells o s said m)
    (hf : ∀ a t, t.RootedAt o scope → Tells o t [] (f a)) : Tells o s said (m >>= f) := by
  unfold Tells
  rw [ensures_bind]
  refine Ensures.imp hm (fun a t ht ↦ ?_) fun _ _ ht ↦ ht
  have hnext : ∀ {u : Store}, Heard o t [] u → Heard o s said u := fun hu ↦ by
    simpa using ht.trans hu
  exact (hf a t (ht.rootedAt hs)).imp (fun _ _ hu ↦ hnext hu) fun _ _ hu ↦ hnext hu

theorem map (h : Tells o s said m) (f : α → β) : Tells o s said (do return f (← m)) := by
  unfold Tells
  rw [ensures_bind]
  exact Ensures.imp h (fun _ _ ht ↦ ht) fun _ _ ht ↦ ht

protected theorem ite {p : Prop} [Decidable p] {n : Eval α} (hm : Tells o s said m)
    (hn : Tells o s more n) : Tells o s (if p then said else more) (if p then m else n) := by
  split
  · exact hm
  · exact hn

/-- A pending return is passed on and nothing is written any more. -/
theorem unlessPending (hs : s.Rooted o) (r : Option Value) {n : Eval Value}
    (hn : Tells o s said n) :
    Tells o s (if Eval.endsBlock r then [] else said)
      (match r with
        | some (.pending v) => pure (.pending v)
        | _ => n) := by
  cases r with
  | none => exact hn
  | some v =>
    cases v with
    | pending w => exact .pure hs _
    | _ => exact hn

end Tells

end Rules

/-! ### Operations -/

section Operations

variable {P : Value → Prop} {o : SinkId} {scope : ScopeId} {s : Store}

theorem Builds.tells {m : Eval Value} (h : Builds P s m) (hs : s.Rooted o) : Tells o s [] m := by
  refine Ensures.imp h (fun v t hv ↦ ?_) ?_
  · obtain ⟨-, rfl⟩ | ⟨xs, -, -, rfl⟩ := hv
    · exact .refl hs
    · exact .cells hs _
  · rintro _ t rfl
    exact .refl hs

namespace Eval

theorem tells_index (hs : s.Rooted o) (target subscript : Value) :
    Tells o s [] (index target subscript) := by
  refine Ensures.imp (index_effect s.holds_true (fun _ _ ↦ trivial) target subscript) ?_ ?_
  · rintro v t ⟨-, rfl⟩
    exact .refl hs
  · rintro _ t rfl
    exact .refl hs

theorem tells_store (hs : s.Rooted o) (target subscript v : Value) :
    Tells o s [] (store target subscript v) := by
  refine Ensures.imp (store_effect target subscript v) (fun _ t ht ↦ ?_) ?_
  · cases ht with
    | element => exact .cells hs _
    | entry => exact .cells hs _
  · rintro _ t ⟨_, -, -, rfl⟩
    exact .refl hs

theorem tells_binding (hs : s.Rooted o) (name : String) : Tells o s [] (binding scope name) := by
  unfold binding Tells
  rw [ensures_bind, ensures_get]
  split
  · exact Heard.refl hs
  · exact Heard.refl hs

theorem tells_identifier (hs : s.Rooted o) (known : List Builtin) (name : String) :
    Tells o s [] (identifier known scope name) := by
  unfold identifier Tells
  rw [ensures_bind, ensures_get]
  split
  · exact Heard.refl hs
  · split
    · exact Heard.refl hs
    · exact Heard.refl hs

theorem tells_step (hs : s.RootedAt o scope) (direction : StepDirection) (place : StepPlace)
    (operand : Expr) : Tells o s [] (step scope direction place operand) := by
  unfold step
  split
  · next name =>
    refine .bind_silent hs (tells_binding hs.rooted name) fun old t ht ↦ ?_
    refine .bind_silent ht (.ofExcept ht.rooted _) fun new u hu ↦ ?_
    cases place with
    | before => exact Heard.bind hu.rooted scope name new
    | after => exact Heard.bind hu.rooted scope name new
  · exact .fail hs.rooted _

end Eval

namespace Builtin

/-- A builtin that writes lays out the texts of its arguments, unless it refuses their number. -/
theorem call_of_layout {b : Builtin} {layout : List String → String}
    (h : b.operation.layout? = some layout) (args : List Value) :
    b.call scope args =
      if b.arity.accepts args.length then (do write scope (layout (← texts args)))
      else pure (Misuse.wrongCount b.name args.length b.arity).value := by
  obtain ⟨name, arity, operation⟩ := b
  cases operation <;> cases h <;> rfl

/-- A call of a builtin writes the text that it says, and no other builtin writes. -/
theorem tells_call (hs : s.RootedAt o scope) (b : Builtin) (args : List Value) :
    Tells o s (b.said args s) (b.call scope args) := by
  unfold said
  split
  · next layout hlayout =>
    rw [call_of_layout hlayout]
    refine .ite ?_ (.pure hs.rooted _)
    unfold texts
    simp only [mapM_ofOption]
    unfold Tells
    simp only [ensures_bind, ensures_get]
    cases args.mapM s.inspect? with
    | none => exact .refl hs.rooted
    | some texts => exact .write hs (layout texts)
  · next hlayout =>
    -- Without a layout the effect of the operation is at most one on the cells.
    have heffect : Performs (fun _ ↦ True) b.operation scope args s (b.call scope args) :=
      call_effect (fun _ _ ↦ trivial) s.holds_true b fun _ _ ↦ trivial
    refine Ensures.imp heffect (fun v t ht ↦ ?_) ?_
    · cases ht with
      | refusal => exact .refl hs.rooted
      | query => exact .refl hs.rooted
      | nothingLeft => exact .refl hs.rooted
      | array _ hmade =>
        obtain ⟨xs, -, -, rfl⟩ := hmade
        exact .cells hs.rooted _
      | deletion => exact .cells hs.rooted _
      | output h => exact absurd (hlayout.symm.trans h) (by simp)
    · rintro _ t ⟨-, rfl⟩
      exact .refl hs.rooted

end Builtin

end Operations

/-! ### Evaluation -/

namespace Eval

/-- Whatever is evaluated up to a depth in a scope of a rooted store tells what its transcript
says. -/
structure TellsAt (known : List Builtin) (depth : Nat) : Prop where
  expr {o : SinkId} {scope : ScopeId} {s : Store} (hs : s.RootedAt o scope) (e : Expr) :
    Tells o s (Transcript.expr known depth scope e s) (expr known depth scope e)
  optional {o : SinkId} {scope : ScopeId} {s : Store} (hs : s.RootedAt o scope)
    (e : Option Expr) :
    Tells o s (Transcript.optional known depth scope e s) (optional known depth scope e)
  exprs {o : SinkId} {scope : ScopeId} {s : Store} (hs : s.RootedAt o scope) (es : List Expr) :
    Tells o s (Transcript.exprs known depth scope es s) (exprs known depth scope es)
  entries {o : SinkId} {scope : ScopeId} {s : Store} (hs : s.RootedAt o scope)
    (pairs : List (Expr × Expr)) (table : Table) :
    Tells o s (Transcript.entries known depth scope pairs s)
      (entries known depth scope pairs table)
  block {o : SinkId} {scope : ScopeId} {s : Store} (hs : s.RootedAt o scope)
    (statements : List Stmt) :
    Tells o s (Transcript.block known depth scope statements s)
      (block known depth scope statements)
  stmt {o : SinkId} {scope : ScopeId} {s : Store} (hs : s.RootedAt o scope) (statement : Stmt) :
    Tells o s (Transcript.stmt known depth scope statement s) (stmt known depth scope statement)
  whileLoop {o : SinkId} {scope : ScopeId} {s : Store} (hs : s.RootedAt o scope)
    (condition : Expr) (body : List Stmt) :
    Tells o s (Transcript.whileLoop known depth scope condition body s)
      (whileLoop known depth scope condition body)
  forLoop {o : SinkId} {scope : ScopeId} {s : Store} (hs : s.RootedAt o scope)
    (condition : Expr) (advance : Stmt) (body : List Stmt) :
    Tells o s (Transcript.forLoop known depth scope condition advance body s)
      (forLoop known depth scope condition advance body)
  apply {o : SinkId} {scope : ScopeId} {s : Store} (hs : s.RootedAt o scope) (callee : Value)
    (args : List Value) :
    Tells o s (Transcript.apply known depth scope callee args s)
      (apply known depth scope callee args)

namespace TellsAt

variable {known : List Builtin} {depth : Nat} {o : SinkId} {scope : ScopeId} {s : Store}
  (ih : TellsAt known depth) (hs : s.RootedAt o scope)

include ih hs

theorem apply_succ (callee : Value) (args : List Value) :
    Tells o s (Transcript.apply known (depth + 1) scope callee args s)
      (Eval.apply known (depth + 1) scope callee args) := by
  rw [Transcript.apply.eq_def, Eval.apply.eq_def]
  cases callee with
  | function id =>
    -- The body is evaluated in the newest scope, which shares the sink of the function's scope.
    have henter := Heard.enter hs.rooted id args
    have hinner : (s.enter (s.closure id) args).RootedAt o ⟨s.scopes.size⟩ := by
      refine ⟨henter.rooted, ?_⟩
      rw [Store.size_scopes_enter]
      exact Nat.lt_succ_self _
    unfold Tells
    simp only [ensures_bind, ensures_get, ensures_modifyGet, ensures_modify, ensures_pure]
    exact Ensures.imp (ih.block hinner (s.closure id).body.body)
      (fun _ _ ht ↦ henter.trans ht) fun _ _ ht ↦ henter.trans ht
  | builtin b =>
    refine .bind_silent hs (Builtin.tells_call hs b args) fun v t ht ↦ ?_
    split
    · exact .fail ht.rooted _
    · exact .pure ht.rooted _
  | _ => exact .fail hs.rooted _

theorem expr_succ (e : Expr) :
    Tells o s (Transcript.expr known (depth + 1) scope e s)
      (Eval.expr known (depth + 1) scope e) := by
  rw [Transcript.expr.eq_def, Eval.expr.eq_def]
  cases e with
  | name p text => exact tells_identifier hs.rooted known text
  | int | float | str | bool => exact .pure hs.rooted _
  | unary p operator operand =>
    exact .bind_silent hs (ih.expr hs operand) fun v t ht ↦ .ofExcept ht.rooted _
  | binary p operator left right =>
    refine .bind hs (ih.expr hs left) fun v t ht ↦ ?_
    refine .bind_silent ht (ih.expr ht right) fun w u hu ↦ ?_
    exact (builds_binary u.holds_true operator v w).tells hu.rooted
  | conditional p condition consequence alternative =>
    refine .bind hs (ih.expr hs condition) fun c t ht ↦ .ite ((ih.block ht _).map _) ?_
    cases alternative with
    | some other => exact (ih.block ht _).map _
    | none => exact .pure ht.rooted _
  | function p parameters body => exact Heard.close hs parameters body
  | call p callee arguments =>
    refine .bind hs (ih.expr hs callee) fun f t ht ↦ ?_
    exact .bind ht (ih.exprs ht arguments) fun vs u hu ↦ ih.apply hu f vs
  | array p elements =>
    exact .bind_silent hs (ih.exprs hs elements) fun vs t ht ↦ Heard.cells ht.rooted _
  | hash p pairs =>
    exact .bind_silent hs (ih.entries hs pairs []) fun table t ht ↦ Heard.cells ht.rooted _
  | index p target subscript =>
    refine .bind hs (ih.expr hs target) fun v t ht ↦ ?_
    exact .bind_silent ht (ih.expr ht subscript) fun i u hu ↦ tells_index hu.rooted v i
  | slice p target start stop =>
    refine .bind hs (ih.expr hs target) fun v t ht ↦ ?_
    refine .bind ht (ih.optional ht start) fun i u hu ↦ ?_
    refine .bind_silent hu (ih.optional hu stop) fun j w hw ↦ ?_
    exact (builds_slice w.holds_true v i j).tells hw.rooted
  | whileLoop p condition body => exact ih.whileLoop hs condition body.body
  | forLoop p start condition advance body =>
    refine .bind hs (ih.stmt hs start) fun r t ht ↦ .unlessPending ht.rooted r ?_
    exact ih.forLoop ht condition advance body.body
  | step p direction place operand => exact tells_step hs direction place operand
  | range p sort start stop =>
    refine .bind hs (ih.expr hs start) fun a t ht ↦ ?_
    refine .bind_silent ht (ih.expr ht stop) fun b u hu ↦ ?_
    exact (builds_range (P := fun _ ↦ True) (fun _ _ ↦ trivial) sort a b).tells hu.rooted

theorem optional_succ (e : Option Expr) :
    Tells o s (Transcript.optional known (depth + 1) scope e s)
      (Eval.optional known (depth + 1) scope e) := by
  cases e with
  | none => exact .pure hs.rooted _
  | some e => exact (ih.expr hs e).map some

theorem exprs_succ (es : List Expr) :
    Tells o s (Transcript.exprs known (depth + 1) scope es s)
      (Eval.exprs known (depth + 1) scope es) := by
  cases es with
  | nil => exact .pure hs.rooted _
  | cons e es => exact .bind hs (ih.expr hs e) fun v t ht ↦ (ih.exprs ht es).map _

theorem entries_succ (pairs : List (Expr × Expr)) (table : Table) :
    Tells o s (Transcript.entries known (depth + 1) scope pairs s)
      (Eval.entries known (depth + 1) scope pairs table) := by
  cases pairs with
  | nil => exact .pure hs.rooted _
  | cons pair pairs =>
    obtain ⟨k, e⟩ := pair
    refine .bind hs (ih.expr hs k) fun key t ht ↦ ?_
    refine .bind ht (.ofExcept ht.rooted _) fun slot u hu ↦ ?_
    exact .bind hu (ih.expr hu e) fun value w hw ↦ ih.entries hw pairs _

theorem block_succ (statements : List Stmt) :
    Tells o s (Transcript.block known (depth + 1) scope statements s)
      (Eval.block known (depth + 1) scope statements) := by
  rcases statements with _ | ⟨statement, _ | ⟨next, statements⟩⟩
  · exact .pure hs.rooted _
  · exact ih.stmt hs statement
  · refine .bind hs (ih.stmt hs statement) fun r t ht ↦ ?_
    exact .ite (.pure ht.rooted _) (ih.block ht (next :: statements))

theorem stmt_succ (statement : Stmt) :
    Tells o s (Transcript.stmt known (depth + 1) scope statement s)
      (Eval.stmt known (depth + 1) scope statement) := by
  rw [Transcript.stmt.eq_def, Eval.stmt.eq_def]
  cases statement with
  | bind p name e =>
    refine .bind_silent hs (ih.expr hs e) fun v t ht ↦ ?_
    split
    · exact .pure ht.rooted _
    · exact Heard.bind ht.rooted scope name.text v
  | store p name subscript e =>
    refine .bind hs (ih.expr hs e) fun v t ht ↦ .ite (.pure ht.rooted _) ?_
    refine .bind ht (tells_binding ht.rooted name.text) fun target u hu ↦ ?_
    refine .bind_silent hu (ih.expr hu subscript) fun i w hw ↦ ?_
    exact (tells_store hw.rooted target i v).map _
  | ret p e => exact (ih.expr hs e).map _
  | expr p e => exact (ih.expr hs e).map _
  | comment p text => exact .pure hs.rooted _

theorem whileLoop_succ (condition : Expr) (body : List Stmt) :
    Tells o s (Transcript.whileLoop known (depth + 1) scope condition body s)
      (Eval.whileLoop known (depth + 1) scope condition body) := by
  refine .bind hs (ih.expr hs condition) fun c t ht ↦ .ite ?_ (.pure ht.rooted _)
  refine .bind ht (ih.block ht body) fun r u hu ↦ .unlessPending hu.rooted r ?_
  exact ih.whileLoop hu condition body

theorem forLoop_succ (condition : Expr) (advance : Stmt) (body : List Stmt) :
    Tells o s (Transcript.forLoop known (depth + 1) scope condition advance body s)
      (Eval.forLoop known (depth + 1) scope condition advance body) := by
  refine .bind hs (ih.expr hs condition) fun c t ht ↦ .ite ?_ (.pure ht.rooted _)
  refine .bind ht (ih.block ht body) fun r u hu ↦ .unlessPending hu.rooted r ?_
  refine .bind hu (ih.stmt hu advance) fun a w hw ↦ .unlessPending hw.rooted a ?_
  exact ih.forLoop hw condition advance body

end TellsAt

/-- Evaluation tells what its transcript says, at every depth. -/
theorem tellsAt (known : List Builtin) (depth : Nat) : TellsAt known depth := by
  induction depth with
  | zero =>
    exact ⟨fun hs _ ↦ .throw hs.rooted _, fun hs _ ↦ .throw hs.rooted _,
      fun hs _ ↦ .throw hs.rooted _, fun hs _ _ ↦ .throw hs.rooted _,
      fun hs _ ↦ .throw hs.rooted _, fun hs _ ↦ .throw hs.rooted _,
      fun hs _ _ ↦ .throw hs.rooted _, fun hs _ _ _ ↦ .throw hs.rooted _,
      fun hs _ _ ↦ .throw hs.rooted _⟩
  | succ depth ih =>
    exact ⟨ih.expr_succ, ih.optional_succ, ih.exprs_succ, ih.entries_succ, ih.block_succ,
      ih.stmt_succ, ih.whileLoop_succ, ih.forLoop_succ, ih.apply_succ⟩

end Eval

/-! ### Stores that are reached -/

/-- The store of a scope that lies in no other and writes to a sink that is there already. -/
def Store.withOutput (sinks : Array String) (o : Fin sinks.size) : Store :=
  ⟨#[], #[], #[⟨[], none, ⟨o⟩⟩], sinks⟩

/-- The stores that can come after `s`, with the texts that were written on the way: by evaluating
code in a scope that is there, by calls, by new scopes inside others and by bindings. The start of
the body of a called function is on the way, too. -/
inductive Reaches (known : List Builtin) (s : Store) : Store → List String → Prop where
  | start : Reaches known s s []
  | expr {t : Store} {log : List String} (depth : Nat) {scope : ScopeId} (e : Expr) :
      scope.index < t.scopes.size → Reaches known s t log →
        Reaches known s (after (Eval.expr known depth scope e) t)
          (log ++ Transcript.expr known depth scope e t)
  | stmt {t : Store} {log : List String} (depth : Nat) {scope : ScopeId} (statement : Stmt) :
      scope.index < t.scopes.size → Reaches known s t log →
        Reaches known s (after (Eval.stmt known depth scope statement) t)
          (log ++ Transcript.stmt known depth scope statement t)
  | program {t : Store} {log : List String} (depth : Nat) {scope : ScopeId} (program : Program) :
      scope.index < t.scopes.size → Reaches known s t log →
        Reaches known s (after (Eval.program known depth scope program) t)
          (log ++ Transcript.block known depth scope program t)
  | call {t : Store} {log : List String} (depth : Nat) {scope : ScopeId} (callee : Value)
      (args : List Value) :
      scope.index < t.scopes.size → Reaches known s t log →
        Reaches known s (after (Eval.apply known depth scope callee args) t)
          (log ++ Transcript.apply known depth scope callee args t)
  | enter {t : Store} {log : List String} (id : ClosureId) (args : List Value) :
      Reaches known s t log → Reaches known s (t.enter (t.closure id) args) log
  | enclose {t : Store} {log : List String} {outer : ScopeId} :
      outer.index < t.scopes.size → Reaches known s t log → Reaches known s (t.enclose outer).2 log
  | bind {t : Store} {log : List String} (id : ScopeId) (name : String) (v : Value) :
      Reaches known s t log → Reaches known s (t.bind id name v) log

section Reached

variable {known : List Builtin} {o : SinkId} {s t : Store} {log : List String}

theorem Store.rooted_withOutput (sinks : Array String) (o : Fin sinks.size) :
    (Store.withOutput sinks o).Rooted ⟨o⟩ := by
  refine ⟨fun i scope hi ↦ ?_, ?_, nofun, Nat.zero_lt_one⟩
  · obtain rfl : scope = ⟨[], none, ⟨o⟩⟩ := by
      simpa [Store.withOutput] using Array.mem_of_getElem? hi
    nofun
  · simp [Store.withOutput]

/-- What was written on the way is what is heard. -/
theorem Reaches.heard (h : Reaches known s t log) (hs : s.Rooted o) : Heard o s log t := by
  induction h with
  | start => exact .refl hs
  | expr depth e hscope _ ih =>
    exact ih.trans ((Eval.tellsAt known depth).expr ⟨ih.rooted, hscope⟩ e).of_after
  | stmt depth statement hscope _ ih =>
    exact ih.trans ((Eval.tellsAt known depth).stmt ⟨ih.rooted, hscope⟩ statement).of_after
  | program depth program hscope _ ih =>
    exact ih.trans
      (((Eval.tellsAt known depth).block ⟨ih.rooted, hscope⟩ program).map _).of_after
  | call depth callee args hscope _ ih =>
    exact ih.trans ((Eval.tellsAt known depth).apply ⟨ih.rooted, hscope⟩ callee args).of_after
  | enter id args _ ih => simpa using ih.trans (.enter ih.rooted id args)
  | enclose houter _ ih => simpa using ih.trans (.enclose ⟨ih.rooted, houter⟩)
  | bind id name v _ ih => simpa using ih.trans (.bind ih.rooted id name v)

end Reached

/-- In every store that is reached from one scope, every scope lies in an earlier one or in none and
writes to the one sink, and so does every scope that a function was made in. Where a scope lies and
what it writes to is never changed. Looking up a name comes to an end and gives the binding of the
nearest scope that has one. What is written, at any depth of calls, is added to the sink in its
order, behind all that is there. -/
theorem reached_scopes (known : List Builtin) (sinks : Array String) (o : Fin sinks.size)
    {t : Store} {log : List String} (ht : Reaches known (.withOutput sinks o) t log) :
    (∀ (i : Nat) (scope : Scope), t.scopes[i]? = some scope →
      scope.sink = ⟨o⟩ ∧ ∀ outer ∈ scope.outer, outer.index < i) ∧
    (∀ f ∈ t.closures, f.scope.index < t.scopes.size ∧ t.sinkOf f.scope = ⟨o⟩) ∧
    (∀ id : ScopeId, id.index < t.scopes.size →
      ∃ ids : List ScopeId, t.Chain id ids ∧ (ids.Pairwise fun a b ↦ b.index < a.index) ∧
        ∀ name : String, t.lookup? id name = ids.findSome? (t.local? · name) ∧
          ∀ count : Nat, ids.length ≤ count →
            t.lookupWithin count id name = t.lookup? id name) ∧
    t.sinks = sinks.modify o (· ++ String.join log) ∧
    ∀ {u : Store} {more : List String}, Reaches known t u more →
      t.links <+: u.links ∧ u.sinks = t.sinks.modify o (· ++ String.join more) := by
  have hheard := ht.heard (Store.rooted_withOutput sinks o)
  have hrooted := hheard.rooted
  refine ⟨fun i scope hi ↦ ?_, fun f hf ↦ ?_, fun id hid ↦ hrooted.lookup hid, hheard.sinks,
    fun hu ↦ ?_⟩
  · exact ⟨hrooted.sink scope (Array.mem_of_getElem? hi), hrooted.outer i scope hi⟩
  · have hscope := hrooted.closures f hf
    exact ⟨hscope, hrooted.sinkOf hscope⟩
  · have hmore := hu.heard hrooted
    exact ⟨hmore.links, hmore.sinks⟩

-- A scope with a new sink of its own starts with nothing in the sink.
example : Store.empty.openGlobal.2 = .withOutput #[""] 0 := rfl

/-- Defines a function `f` that writes and gives another function that writes, calls both and writes
what comes out. -/
def nestedProgram : Program :=
  let inner : Block := .mk default [.expr default (.call default (.name default "print")
    [.name default "a", .name default "b"])]
  let outer : Block := .mk default
    [.expr default (.call default (.name default "puts") [.name default "a"]),
      .expr default (.function default [⟨"b", default⟩] inner)]
  [.bind default ⟨"f", default⟩ (.function default [⟨"a", default⟩] outer),
    .expr default (.call default (.name default "puts")
      [.call default (.call default (.name default "f") [.int default 1]) [.int default 2],
        .str default "end"])]

theorem reached_scopes_nested :
    let s := Store.withOutput #["x\n", "y\n"] 1
    let t := after (Eval.program Builtin.table 20 ⟨0⟩ nestedProgram) s
    Reaches Builtin.table s t ["1\n", "1 2\n", "null\nend\n"] ∧
    t.sinks = #["x\n", "y\n1\n1 2\nnull\nend\n"] ∧
    t.links = [(none, ⟨1⟩), (some ⟨0⟩, ⟨1⟩), (some ⟨1⟩, ⟨1⟩)] ∧
    ∃ ids : List ScopeId, t.Chain ⟨2⟩ ids ∧ (ids.Pairwise fun a b ↦ b.index < a.index) ∧
      t.lookup? ⟨2⟩ "a" = ids.findSome? (t.local? · "a") := by
  intro s t
  have hsaid : Transcript.block Builtin.table 20 ⟨0⟩ nestedProgram s =
      ["1\n", "1 2\n", "null\nend\n"] := by decide +kernel
  have hreaches : Reaches Builtin.table s t ([] ++ ["1\n", "1 2\n", "null\nend\n"]) := by
    rw [← hsaid]
    exact .program 20 nestedProgram Nat.zero_lt_one .start
  obtain ⟨-, -, hlookup, hsinks, -⟩ := reached_scopes Builtin.table #["x\n", "y\n"] 1 hreaches
  have hsize : 2 < t.scopes.size := by decide +kernel
  obtain ⟨ids, hids, hearlier, hname⟩ := hlookup ⟨2⟩ hsize
  have htexts : #["x\n", "y\n"].modify 1
      (· ++ String.join ["1\n", "1 2\n", "null\nend\n"]) =
        #["x\n", "y\n1\n1 2\nnull\nend\n"] := by decide +kernel
  have hlinks : t.links = [(none, ⟨1⟩), (some ⟨0⟩, ⟨1⟩), (some ⟨1⟩, ⟨1⟩)] := by decide +kernel
  exact ⟨hreaches, hsinks.trans htexts, hlinks, ids, hids, hearlier, (hname "a").1⟩

end Treewalk
