import Treewalk.Proofs.Eval.Effects
import Treewalk.Proofs.Eval.Scopes
import Treewalk.Proofs.Store.Soundness

/-!
# Evaluation leaves no dangling references

Whatever is evaluated in a scope of a sound store, and however it ends, the store that it leaves is
sound and has everything that was there before, and what it gives refers to something in that store
(`Eval.soundAt`). A value that was computed earlier stays good while the rest is evaluated, because
a store only grows.
-/

set_option autoImplicit false
set_option relaxedAutoImplicit false

namespace Treewalk

variable {α β : Type} {s t : Store} {scope : ScopeId}

namespace Store

/-- The store is sound, and the scope is in it. -/
structure Hosts (s : Store) (scope : ScopeId) : Prop where
  sound : s.Sound
  scope : scope.index < s.scopes.size

theorem Hosts.leads (h : s.Hosts scope) (ht : s.Leads t) : t.Hosts scope :=
  ⟨ht.sound, Nat.lt_of_lt_of_le h.scope ht.grows.scopes⟩

theorem has_of_scalar (s : Store) (v : Value) (h : v.IsScalar) : s.Has v := by
  cases v <;> first | exact h.elim | trivial

theorem has_toPending {v : Value} (h : s.Has v) : s.Has v.toPending := by
  cases v <;> exact h

theorem has_result {v : Value} (h : s.Has v) : s.Has v.result := by
  cases v <;> exact h

end Store

/-- Started in the store `s`, the computation leaves a sound store that has grown from it, and what
it gives has the property `Q` there. -/
def Grounded (s : Store) (Q : Store → α → Prop) (m : Eval α) : Prop :=
  Ensures m s (fun a t ↦ s.Leads t ∧ Q t a) fun _ t ↦ s.Leads t

namespace Grounded

variable {Q R : Store → α → Prop} {m : Eval α}

protected theorem pure (hs : s.Sound) {a : α} (h : Q s a) : Grounded s Q (pure a) :=
  ⟨hs.leads, h⟩

protected theorem throw (hs : s.Sound) (e : Stop) : Grounded s Q (throw e) :=
  hs.leads

theorem fail (hs : s.Sound) (e : RuntimeError) : Grounded s Q (Eval.fail e) :=
  hs.leads

protected theorem bind {Q : Store → β → Prop} {f : α → Eval β} (hm : Grounded s R m)
    (hf : ∀ (a : α) (t : Store), s.Leads t → R t a → Grounded t Q (f a)) :
    Grounded s Q (m >>= f) := by
  unfold Grounded
  rw [ensures_bind]
  refine Ensures.imp hm (fun a t ha ↦ ?_) fun _ _ ht ↦ ht
  refine Ensures.imp (hf a t ha.1 ha.2) (fun b u hb ↦ ?_) fun _ u hu ↦ ?_
  · exact ⟨ha.1.trans hb.1, hb.2⟩
  · exact ha.1.trans hu

theorem get_bind {Q : Store → β → Prop} {f : Store → Eval β} (hf : Grounded s Q (f s)) :
    Grounded s Q (get >>= f) :=
  hf

protected theorem ite {p : Prop} [Decidable p] {n : Eval α} (hm : Grounded s Q m)
    (hn : Grounded s Q n) : Grounded s Q (if p then m else n) := by
  split
  · exact hm
  · exact hn

theorem ofExcept (hs : s.Sound) {x : Except RuntimeError α} (h : ∀ a, x = .ok a → Q s a) :
    Grounded s Q (Eval.ofExcept x) := by
  cases x with
  | ok a => exact .pure hs (h a rfl)
  | error e => exact .fail hs e

theorem newArray (hs : s.Sound) {xs : Array Value} (h : ∀ v ∈ xs, s.Has v) :
    Grounded s Store.Has (Eval.newArray xs) :=
  ⟨hs.allocate h, s.kind?_allocate_new (.array xs)⟩

theorem newHash (hs : s.Sound) {table : Table} (h : ∀ e ∈ table, s.Has e.key ∧ s.Has e.value) :
    Grounded s Store.Has (Eval.newHash table) :=
  ⟨hs.allocate h, s.kind?_allocate_new (.hash table)⟩

end Grounded

/-! ### Operations -/

theorem Store.MakesArray.leads {v : Value} (h : s.MakesArray s.Has v t) (hs : s.Sound) :
    s.Leads t ∧ t.Has v := by
  obtain ⟨xs, hxs, rfl, rfl⟩ := h
  exact ⟨hs.allocate hxs, s.kind?_allocate_new (.array xs)⟩

theorem Builds.grounded {m : Eval Value} (h : Builds s.Has s m) (hs : s.Sound) :
    Grounded s Store.Has m := by
  refine Ensures.imp h (fun v t hv ↦ ?_) fun _ t ht ↦ ?_
  · rcases hv with ⟨hscalar, rfl⟩ | hmade
    · exact ⟨hs.leads, t.has_of_scalar v hscalar⟩
    · exact hmade.leads hs
  · rw [ht]
    exact hs.leads

namespace Eval

theorem grounded_index (hs : s.Sound) (target subscript : Value) :
    Grounded s Store.Has (index target subscript) := by
  refine (index_effect hs.values s.has_of_scalar target subscript).imp (fun v t hv ↦ ?_)
    fun _ t ht ↦ ?_
  · obtain ⟨hv, rfl⟩ := hv
    exact ⟨hs.leads, hv⟩
  · rw [ht]
    exact hs.leads

theorem Assigns.leads {target subscript v : Value} (h : Assigns s target subscript v t)
    (hs : s.Sound) (hsubscript : s.Has subscript) (hv : s.Has v) : s.Leads t := by
  cases h with
  | element => exact hs.setElement hv
  | entry hk =>
    refine hs.modifyEntries _ fun table e he ↦ ?_
    rcases Table.mem_insert he with rfl | he
    · exact .inr ⟨hsubscript, hv⟩
    · exact .inl he

theorem grounded_store (hs : s.Sound) (target : Value) {subscript v : Value}
    (hsubscript : s.Has subscript) (hv : s.Has v) :
    Grounded s (fun _ _ ↦ True) (store target subscript v) := by
  refine (store_effect target subscript v).imp (fun _ t ht ↦ ?_) fun _ t ht ↦ ?_
  · exact ⟨ht.leads hs hsubscript hv, trivial⟩
  · obtain ⟨-, -, -, rfl⟩ := ht
    exact hs.leads

theorem grounded_binding (hs : s.Sound) (name : String) :
    Grounded s Store.Has (binding scope name) := by
  unfold binding
  refine .get_bind ?_
  split
  · next v hv => exact .pure hs (hs.values.lookupWithin hv)
  · exact .fail hs _

theorem grounded_identifier (hs : s.Sound) (known : List Builtin) (name : String) :
    Grounded s Store.Has (identifier known scope name) := by
  unfold identifier
  refine .get_bind ?_
  split
  · next v hv => exact .pure hs (hs.values.lookupWithin hv)
  · split
    · exact .pure hs trivial
    · exact .fail hs _

theorem grounded_step (hs : s.Sound) (direction : StepDirection) (place : StepPlace)
    (operand : Expr) : Grounded s Store.Has (step scope direction place operand) := by
  unfold step
  split
  · next name =>
    refine (grounded_binding hs name).bind fun old t ht hold ↦ ?_
    have hnew : Grounded t Store.Has (ofExcept (stepped direction name old)) :=
      .ofExcept ht.sound fun v hv ↦ t.has_of_scalar v (stepped_scalar hv)
    refine hnew.bind fun new u hu hnew ↦ ?_
    have hbind := hu.sound.bind scope name hnew
    unfold Grounded
    rw [ensures_bind, ensures_modify]
    cases place with
    | before => exact ⟨hbind, hnew.grows hbind.grows⟩
    | after => exact ⟨hbind, (hold.grows hu.grows).grows hbind.grows⟩
  · exact .fail hs _

theorem grounded_newClosure (hs : s.Hosts scope) (parameters : List Name) (body : Block) :
    Grounded s Store.Has (newClosure ⟨parameters, body, scope⟩) :=
  ⟨hs.sound.close hs.scope, by simp [Store.Has]⟩

end Eval

theorem Builtin.Effect.leads {operation : Operation} {args : List Value} {v : Value}
    (h : Builtin.Effect s.Has operation scope args s v t) (hs : s.Sound)
    (hargs : ∀ v ∈ args, s.Has v) : s.Leads t ∧ t.Has v := by
  cases h with
  | refusal message => exact ⟨hs.leads, trivial⟩
  | query _ hv => exact ⟨hs.leads, hv⟩
  | nothingLeft => exact ⟨hs.leads, trivial⟩
  | array _ hmade => exact hmade.leads hs
  | @deletion id key k _ heq _ =>
    subst heq
    have hid : s.Has (.hash id) := hargs _ (by simp)
    have herase : s.Leads (s.modifyEntries id fun t ↦ t.erase k) :=
      hs.modifyEntries id fun _ e he ↦ .inl (List.mem_filter.mp he).1
    exact ⟨herase, hid.grows herase.grows⟩
  | output => exact ⟨hs.write scope _, trivial⟩

theorem Builtin.grounded_call (hs : s.Sound) (b : Builtin) {args : List Value}
    (hargs : ∀ v ∈ args, s.Has v) : Grounded s Store.Has (b.call scope args) := by
  refine (Builtin.call_effect s.has_of_scalar hs.values b hargs).imp (fun v t hv ↦ ?_)
    fun _ t ht ↦ ?_
  · exact hv.leads hs hargs
  · rw [ht.2]
    exact hs.leads

/-! ### Evaluation -/

namespace Eval

/-- Everything that is evaluated up to a depth keeps the store sound. -/
structure SoundAt (known : List Builtin) (depth : Nat) : Prop where
  expr {s : Store} {scope : ScopeId} (hs : s.Hosts scope) (e : Expr) :
    Grounded s Store.Has (expr known depth scope e)
  optional {s : Store} {scope : ScopeId} (hs : s.Hosts scope) (e : Option Expr) :
    Grounded s (fun t r ↦ ∀ v ∈ r, t.Has v) (optional known depth scope e)
  exprs {s : Store} {scope : ScopeId} (hs : s.Hosts scope) (es : List Expr) :
    Grounded s (fun t vs ↦ ∀ v ∈ vs, t.Has v) (exprs known depth scope es)
  entries {s : Store} {scope : ScopeId} (hs : s.Hosts scope) (pairs : List (Expr × Expr))
    {table : Table} : (∀ e ∈ table, s.Has e.key ∧ s.Has e.value) →
      Grounded s (fun t table ↦ ∀ e ∈ table, t.Has e.key ∧ t.Has e.value)
        (entries known depth scope pairs table)
  block {s : Store} {scope : ScopeId} (hs : s.Hosts scope) (statements : List Stmt) :
    Grounded s (fun t r ↦ ∀ v ∈ r, t.Has v) (block known depth scope statements)
  stmt {s : Store} {scope : ScopeId} (hs : s.Hosts scope) (statement : Stmt) :
    Grounded s (fun t r ↦ ∀ v ∈ r, t.Has v) (stmt known depth scope statement)
  whileLoop {s : Store} {scope : ScopeId} (hs : s.Hosts scope) (condition : Expr)
    (body : List Stmt) : Grounded s Store.Has (whileLoop known depth scope condition body)
  forLoop {s : Store} {scope : ScopeId} (hs : s.Hosts scope) (condition : Expr) (advance : Stmt)
    (body : List Stmt) : Grounded s Store.Has (forLoop known depth scope condition advance body)
  apply {s : Store} {scope : ScopeId} (hs : s.Hosts scope) {callee : Value} {args : List Value} :
    s.Has callee → (∀ v ∈ args, s.Has v) →
      Grounded s Store.Has (apply known depth scope callee args)

namespace SoundAt

variable {known : List Builtin} {depth : Nat} (ih : SoundAt known depth) (hs : s.Hosts scope)

include ih hs

/-- A call runs the body in a new scope of the store. -/
theorem apply_succ {callee : Value} {args : List Value} (hcallee : s.Has callee)
    (hargs : ∀ v ∈ args, s.Has v) :
    Grounded s Store.Has (Eval.apply known (depth + 1) scope callee args) := by
  rw [Eval.apply.eq_def]
  dsimp only
  split
  · next id =>
    have henter := hs.sound.enter hcallee hargs
    have hinner : (s.enter (s.closure id) args).Hosts ⟨s.scopes.size⟩ := by
      refine ⟨henter.sound, ?_⟩
      rw [Store.size_scopes_enter]
      exact Nat.lt_succ_self _
    unfold Grounded
    simp only [ensures_bind, ensures_get, ensures_modifyGet, ensures_modify, ensures_pure]
    refine Ensures.imp (ih.block hinner (s.closure id).body.body) (fun r t hr ↦ ?_)
      fun _ t ht ↦ henter.trans ht
    refine ⟨henter.trans hr.1, Value.holds_getD_null trivial fun v hv ↦ ?_⟩
    obtain ⟨w, hw, rfl⟩ := Option.map_eq_some_iff.mp hv
    exact Store.has_result (hr.2 w hw)
  · next b =>
    refine (Builtin.grounded_call hs.sound b hargs).bind fun v t ht hv ↦ ?_
    split
    · exact .fail ht.sound _
    · exact .pure ht.sound hv
  · exact .fail hs.sound _

theorem expr_succ (e : Expr) : Grounded s Store.Has (Eval.expr known (depth + 1) scope e) := by
  have hscalar : ∀ {v : Value}, v.IsScalar → Grounded s Store.Has (pure v) :=
    fun h ↦ .pure hs.sound (s.has_of_scalar _ h)
  rw [Eval.expr.eq_def]
  dsimp only
  split
  · next text => exact grounded_identifier hs.sound known text
  · exact hscalar trivial
  · exact hscalar trivial
  · exact hscalar trivial
  · exact hscalar trivial
  · next operator operand =>
    refine (ih.expr hs operand).bind fun v t ht _ ↦ ?_
    exact .ofExcept ht.sound fun w hw ↦ t.has_of_scalar w (unary_scalar hw)
  · next operator left right =>
    refine (ih.expr hs left).bind fun v t ht _ ↦ ?_
    refine (ih.expr (hs.leads ht) right).bind fun w u hu _ ↦ ?_
    exact (builds_binary hu.sound.values operator v w).grounded hu.sound
  · next condition consequence alternative =>
    refine (ih.expr hs condition).bind fun c t ht _ ↦ ?_
    have hbody : ∀ statements : List Stmt, Grounded t Store.Has (do
        return (← Eval.block known depth scope statements).getD .null) := fun statements ↦
      (ih.block (hs.leads ht) statements).bind fun r u hu hr ↦
        .pure hu.sound (Value.holds_getD_null trivial hr)
    refine .ite (hbody _) ?_
    split
    · exact hbody _
    · exact .pure ht.sound trivial
  · next parameters body => exact grounded_newClosure hs parameters body
  · next callee arguments =>
    refine (ih.expr hs callee).bind fun f t ht hf ↦ ?_
    refine (ih.exprs (hs.leads ht) arguments).bind fun vs u hu hvs ↦ ?_
    exact ih.apply (hs.leads (ht.trans hu)) (hf.grows hu.grows) hvs
  · next elements =>
    exact (ih.exprs hs elements).bind fun vs t ht hvs ↦ .newArray ht.sound (by simpa using hvs)
  · next pairs =>
    exact (ih.entries hs pairs (by simp)).bind fun table t ht htable ↦ .newHash ht.sound htable
  · next target subscript =>
    refine (ih.expr hs target).bind fun v t ht _ ↦ ?_
    exact (ih.expr (hs.leads ht) subscript).bind fun i u hu _ ↦ grounded_index hu.sound v i
  · next target start stop =>
    refine (ih.expr hs target).bind fun v t ht _ ↦ ?_
    refine (ih.optional (hs.leads ht) start).bind fun i u hu _ ↦ ?_
    refine (ih.optional (hs.leads (ht.trans hu)) stop).bind fun j w hw _ ↦ ?_
    exact (builds_slice hw.sound.values v i j).grounded hw.sound
  · next condition body => exact ih.whileLoop hs condition body.body
  · next start condition advance body =>
    refine (ih.stmt hs start).bind fun r t ht hr ↦ ?_
    split
    · exact .pure ht.sound (hr _ rfl)
    · exact ih.forLoop (hs.leads ht) condition advance body.body
  · next direction place operand => exact grounded_step hs.sound direction place operand
  · next sort start stop =>
    refine (ih.expr hs start).bind fun a t ht _ ↦ ?_
    refine (ih.expr (hs.leads ht) stop).bind fun b u hu _ ↦ ?_
    exact (builds_range u.has_of_scalar sort a b).grounded hu.sound

theorem optional_succ (e : Option Expr) :
    Grounded s (fun t r ↦ ∀ v ∈ r, t.Has v) (Eval.optional known (depth + 1) scope e) := by
  cases e with
  | none => exact .pure hs.sound (by simp)
  | some e => exact (ih.expr hs e).bind fun v t ht hv ↦ .pure ht.sound (by simpa using hv)

theorem exprs_succ (es : List Expr) :
    Grounded s (fun t vs ↦ ∀ v ∈ vs, t.Has v) (Eval.exprs known (depth + 1) scope es) := by
  cases es with
  | nil => exact .pure hs.sound (by simp)
  | cons e es =>
    refine (ih.expr hs e).bind fun v t ht hv ↦ ?_
    refine (ih.exprs (hs.leads ht) es).bind fun vs u hu hvs ↦ .pure hu.sound ?_
    exact List.forall_mem_cons.mpr ⟨hv.grows hu.grows, hvs⟩

theorem entries_succ (pairs : List (Expr × Expr)) {table : Table}
    (htable : ∀ e ∈ table, s.Has e.key ∧ s.Has e.value) :
    Grounded s (fun t table ↦ ∀ e ∈ table, t.Has e.key ∧ t.Has e.value)
      (Eval.entries known (depth + 1) scope pairs table) := by
  cases pairs with
  | nil => exact .pure hs.sound htable
  | cons pair pairs =>
    obtain ⟨k, e⟩ := pair
    refine (ih.expr hs k).bind fun key t ht hkey ↦ ?_
    have hslot : Grounded t (fun _ _ ↦ True) (ofExcept (keyOf key)) :=
      .ofExcept ht.sound fun _ _ ↦ trivial
    refine hslot.bind fun slot u hu _ ↦ ?_
    refine (ih.expr (hs.leads (ht.trans hu)) e).bind fun value w hw hvalue ↦ ?_
    have hgrows := hu.trans hw
    refine ih.entries (hs.leads (ht.trans hgrows)) pairs fun e he ↦ ?_
    rcases Table.mem_insert he with rfl | he
    · exact ⟨hkey.grows hgrows.grows, hvalue⟩
    · have hall := (ht.trans hgrows).grows
      exact ⟨(htable e he).1.grows hall, (htable e he).2.grows hall⟩

theorem block_succ (statements : List Stmt) :
    Grounded s (fun t r ↦ ∀ v ∈ r, t.Has v) (Eval.block known (depth + 1) scope statements) := by
  rcases statements with _ | ⟨statement, _ | ⟨next, statements⟩⟩
  · exact .pure hs.sound (by simp)
  · exact ih.stmt hs statement
  · refine (ih.stmt hs statement).bind fun r t ht hr ↦ ?_
    exact .ite (.pure ht.sound hr) (ih.block (hs.leads ht) (next :: statements))

theorem stmt_succ (statement : Stmt) :
    Grounded s (fun t r ↦ ∀ v ∈ r, t.Has v) (Eval.stmt known (depth + 1) scope statement) := by
  rw [Eval.stmt.eq_def]
  dsimp only
  split
  · next name e =>
    refine (ih.expr hs e).bind fun v t ht hv ↦ .ite (.pure ht.sound (by simpa using hv)) ?_
    exact ⟨ht.sound.bind scope name.text hv, by simp⟩
  · next name subscript e =>
    refine (ih.expr hs e).bind fun v t ht hv ↦ .ite (.pure ht.sound (by simpa using hv)) ?_
    refine (grounded_binding ht.sound name.text).bind fun target u hu _ ↦ ?_
    refine (ih.expr (hs.leads (ht.trans hu)) subscript).bind fun i w hw hi ↦ ?_
    refine (grounded_store hw.sound target hi (hv.grows (hu.trans hw).grows)).bind
      fun _ x hx _ ↦ ?_
    exact .pure hx.sound (by simp)
  · next e =>
    refine (ih.expr hs e).bind fun v t ht hv ↦ .pure ht.sound ?_
    simpa using Store.has_toPending hv
  · next e => exact (ih.expr hs e).bind fun v t ht hv ↦ .pure ht.sound (by simpa using hv)
  · exact .pure hs.sound (by simp)

theorem whileLoop_succ (condition : Expr) (body : List Stmt) :
    Grounded s Store.Has (Eval.whileLoop known (depth + 1) scope condition body) := by
  refine (ih.expr hs condition).bind fun c t ht _ ↦ .ite ?_ (.pure ht.sound trivial)
  refine (ih.block (hs.leads ht) body).bind fun r u hu hr ↦ ?_
  split
  · exact .pure hu.sound (hr _ rfl)
  · exact ih.whileLoop (hs.leads (ht.trans hu)) condition body

theorem forLoop_succ (condition : Expr) (advance : Stmt) (body : List Stmt) :
    Grounded s Store.Has (Eval.forLoop known (depth + 1) scope condition advance body) := by
  refine (ih.expr hs condition).bind fun c t ht _ ↦ .ite ?_ (.pure ht.sound trivial)
  refine (ih.block (hs.leads ht) body).bind fun r u hu hr ↦ ?_
  split
  · exact .pure hu.sound (hr _ rfl)
  · refine (ih.stmt (hs.leads (ht.trans hu)) advance).bind fun a w hw ha ↦ ?_
    split
    · exact .pure hw.sound (ha _ rfl)
    · exact ih.forLoop (hs.leads ((ht.trans hu).trans hw)) condition advance body

end SoundAt

/-- Evaluation keeps the store sound at every depth. -/
theorem soundAt (known : List Builtin) (depth : Nat) : SoundAt known depth := by
  induction depth with
  | zero =>
    exact ⟨fun hs _ ↦ .throw hs.sound _, fun hs _ ↦ .throw hs.sound _,
      fun hs _ ↦ .throw hs.sound _, fun hs _ _ _ ↦ .throw hs.sound _,
      fun hs _ ↦ .throw hs.sound _, fun hs _ ↦ .throw hs.sound _,
      fun hs _ _ ↦ .throw hs.sound _, fun hs _ _ _ ↦ .throw hs.sound _,
      fun hs _ _ _ _ ↦ .throw hs.sound _⟩
  | succ depth ih =>
    exact ⟨ih.expr_succ, ih.optional_succ, ih.exprs_succ, ih.entries_succ, ih.block_succ,
      ih.stmt_succ, ih.whileLoop_succ, ih.forLoop_succ, ih.apply_succ⟩

end Eval

end Treewalk
