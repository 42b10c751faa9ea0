import Treewalk.Proofs.Eval.Closures
import Treewalk.Proofs.Eval.Course
import Treewalk.Proofs.Eval.Effects
import Treewalk.Proofs.Store.Equality

/-!
# Without stores every cell refers to earlier cells

A new array or hash holds values that were there before it. The one statement that puts a value into
an older cell is a store under an index; a builtin can only take an entry out of one. So code
without stores (`Expr.storeFree`), in the functions it makes too, keeps a store layered: every cell
refers to earlier cells only (`Store.Layered`). Then values are well founded, and printing and
comparing them ends.
-/

set_option autoImplicit false
set_option relaxedAutoImplicit false

namespace Treewalk

/-! ### Code without stores -/

mutual

/-- Whether no statement in an expression, or in the functions it makes, stores under an index. -/
def Expr.storeFree : Expr → Bool
  | .name .. | .int .. | .float .. | .str .. | .bool .. => true
  | .unary _ _ operand => operand.storeFree
  | .binary _ _ left right => left.storeFree && right.storeFree
  | .conditional _ condition consequence alternative =>
    condition.storeFree && consequence.storeFree && Block.storeFreeOption alternative
  | .function _ _ body => body.storeFree
  | .call _ callee arguments => callee.storeFree && Expr.storeFreeList arguments
  | .array _ elements => Expr.storeFreeList elements
  | .hash _ pairs => Expr.storeFreePairs pairs
  | .index _ target subscript => target.storeFree && subscript.storeFree
  | .slice _ target start stop =>
    target.storeFree && Expr.storeFreeOption start && Expr.storeFreeOption stop
  | .whileLoop _ condition body => condition.storeFree && body.storeFree
  | .forLoop _ start condition advance body =>
    start.storeFree && condition.storeFree && advance.storeFree && body.storeFree
  | .step _ _ _ operand => operand.storeFree
  | .range _ _ start stop => start.storeFree && stop.storeFree

def Expr.storeFreeOption : Option Expr → Bool
  | none => true
  | some e => e.storeFree

def Expr.storeFreeList : List Expr → Bool
  | [] => true
  | e :: es => e.storeFree && Expr.storeFreeList es

def Expr.storeFreePairs : List (Expr × Expr) → Bool
  | [] => true
  | (key, value) :: pairs => key.storeFree && value.storeFree && Expr.storeFreePairs pairs

/-- Whether a statement is no store and none is inside it. -/
def Stmt.storeFree : Stmt → Bool
  | .bind _ _ value => value.storeFree
  | .store .. => false
  | .ret _ value => value.storeFree
  | .expr _ expression => expression.storeFree
  | .comment .. => true

def Stmt.storeFreeList : List Stmt → Bool
  | [] => true
  | s :: ss => s.storeFree && Stmt.storeFreeList ss

def Block.storeFree : Block → Bool
  | .mk _ body => Stmt.storeFreeList body

def Block.storeFreeOption : Option Block → Bool
  | none => true
  | some block => block.storeFree

end

theorem Stmt.storeFreeList_iff {ss : List Stmt} :
    Stmt.storeFreeList ss = true ↔ ∀ s ∈ ss, s.storeFree = true := by
  induction ss with
  | nil => simp [storeFreeList]
  | cons s ss ih => simp [storeFreeList, ih]

theorem Block.storeFreeList_body {block : Block} (h : block.storeFree = true) :
    Stmt.storeFreeList block.body = true := by
  cases block
  exact h

/-! ### Layered stores -/

namespace Store

variable {s t u : Store} {v : Value}

/-- If cells refer to earlier cells only, then no way into values goes on for ever. -/
theorem Stacked.wellFounded (hs : s.Stacked) : WellFounded fun part whole ↦ s.Part whole part := by
  have hacc : ∀ (n : Nat) (v : Value), v.Before n → Acc (fun part whole ↦ s.Part whole part) v := by
    intro n
    induction n using Nat.strong_induction_on with
    | _ n ih =>
      intro v hv
      -- A pending return is built on what it carries, all else with parts refers to a cell.
      induction v with
      | pending w ihw =>
        refine .intro _ fun p hp ↦ ?_
        cases hp
        exact ihw hv
      | _ =>
        refine .intro _ fun p hp ↦ ?_
        obtain ⟨i, -, -, href, -⟩ := hp.exists_cell nofun
        rw [← href] at hp hv
        exact ih i (s.before_ref.mp hv) p (hs.before_of_ref hp)
  have hbefore : ∀ v : Value, ∃ n, v.Before n := by
    intro v
    induction v with
    | array id => exact ⟨_, Nat.lt_succ_self id.index⟩
    | hash id => exact ⟨_, Nat.lt_succ_self id.index⟩
    | pending w ih => exact ih
    | _ => exact ⟨0, trivial⟩
  refine ⟨fun v ↦ ?_⟩
  obtain ⟨n, hn⟩ := hbefore v
  exact hacc n v hn

/-- The cells that a value refers to are in the store. -/
def Covers (s : Store) (v : Value) : Prop :=
  v.Before s.cells.size

theorem covers_of_scalar (s : Store) (v : Value) (h : v.IsScalar) : s.Covers v := by
  cases v <;> first | exact h.elim | trivial

theorem covers_toPending (h : s.Covers v) : s.Covers v.toPending := by
  cases v <;> exact h

theorem covers_result (h : s.Covers v) : s.Covers v.result := by
  cases v <;> exact h

/-- Cells refer to earlier cells only and names to cells that are there, and no function stores
under an index. -/
structure Layered (s : Store) : Prop where
  cells : s.Stacked
  bindings : ∀ scope ∈ s.scopes, ∀ b ∈ scope.bindings, s.Covers b.2
  closures : ∀ f ∈ s.closures, f.body.storeFree = true

/-- A layered store with all the cells of another. -/
structure Rises (s t : Store) : Prop where
  cells : s.cells.size ≤ t.cells.size
  layered : t.Layered

theorem Rises.trans (h : s.Rises t) (h' : t.Rises u) : s.Rises u :=
  ⟨h.cells.trans h'.cells, h'.layered⟩

theorem Covers.rises (hv : s.Covers v) (h : s.Rises t) : t.Covers v :=
  hv.mono h.cells

namespace Layered

variable (hs : s.Layered)

include hs

theorem rises : s.Rises s :=
  ⟨Nat.le_refl _, hs⟩

theorem holds : s.Holds s.Covers := by
  refine ⟨fun cell hcell ↦ ?_, hs.bindings⟩
  obtain ⟨i, hi, rfl⟩ := Array.mem_iff_getElem.mp hcell
  have hbefore := hs.cells i _ (Array.getElem?_eq_getElem hi)
  cases hc : s.cells[i] with
  | array xs =>
    rw [hc] at hbefore
    exact fun v hv ↦ (hbefore v hv).mono hi.le
  | hash table =>
    rw [hc] at hbefore
    exact fun e he ↦ ⟨(hbefore e he).1.mono hi.le, (hbefore e he).2.mono hi.le⟩

/-- What a new cell holds was there before it. -/
theorem allocate {cell : Cell} (hc : cell.Holds s.Covers) : s.Rises (s.allocate cell).2 := by
  have hsize : (s.allocate cell).2.cells.size = s.cells.size + 1 := Array.size_push _
  refine ⟨by omega, fun i c hi ↦ ?_, fun scope hscope b hb ↦ ?_, hs.closures⟩
  · rw [Store.allocate, Array.getElem?_push] at hi
    split at hi
    · next hnew =>
      obtain rfl := Option.some.inj hi
      rw [hnew]
      exact hc
    · exact hs.cells i c hi
  · exact (hs.bindings scope hscope b hb).mono (by omega)

/-- Taking entries out of a hash adds no reference. -/
theorem erase (id : CellId) (k : Key) : s.Rises (s.modifyEntries id fun t ↦ t.erase k) := by
  have hsize : (s.modifyEntries id fun t ↦ t.erase k).cells.size = s.cells.size :=
    Array.size_modify
  refine ⟨hsize.ge, fun i c hi ↦ ?_, fun scope hscope b hb ↦ ?_, hs.closures⟩
  · rw [modifyEntries, modifyCell, Array.getElem?_modify] at hi
    split at hi
    · obtain ⟨before, hbefore, rfl⟩ := Option.map_eq_some_iff.mp hi
      have hold := hs.cells i before hbefore
      cases before with
      | array xs => exact hold
      | hash table => exact fun e he ↦ hold e (List.mem_filter.mp he).1
    · exact hs.cells i c hi
  · exact (hs.bindings scope hscope b hb).mono hsize.ge

theorem bind (id : ScopeId) (name : String) (hv : s.Covers v) : s.Rises (s.bind id name v) :=
  ⟨Nat.le_refl _, hs.cells, (hs.holds.bind hv).bindings, hs.closures⟩

theorem enter {args : List Value} (hargs : ∀ v ∈ args, s.Covers v) (f : Closure) :
    s.Rises (s.enter f args) := by
  have hcells : (s.enter f args).cells = s.cells :=
    (s.enclose f.scope).2.cells_bindAll ⟨s.scopes.size⟩ f.parameters args
  refine ⟨by rw [hcells], fun i c hi ↦ ?_, fun scope hscope b hb ↦ ?_, ?_⟩
  · rw [hcells] at hi
    exact hs.cells i c hi
  · rw [Covers, hcells]
    exact (hs.holds.enter hargs).bindings scope hscope b hb
  · rw [closures_enter]
    exact hs.closures

theorem write (id : ScopeId) (text : String) : s.Rises (s.write id text) :=
  ⟨Nat.le_refl _, hs.cells, hs.bindings, hs.closures⟩

theorem close {f : Closure} (hf : f.body.storeFree = true) : s.Rises (s.close f).2 :=
  ⟨Nat.le_refl _, hs.cells, hs.bindings, forall_mem_push hs.closures hf⟩

theorem storeFree_closure (id : ClosureId) :
    Stmt.storeFreeList (s.closure id).body.body = true := by
  refine Block.storeFreeList_body ?_
  unfold Store.closure
  rw [Array.getD_eq_getD_getElem?]
  cases hid : s.closures[id.index]? with
  | none => rfl
  | some f => exact hs.closures f (Array.mem_of_getElem? hid)

end Layered

end Store

/-! ### Parts of computations -/

variable {α β : Type} {s t : Store} {scope : ScopeId}

/-- Started in the store `s`, the computation leaves a layered store that has grown from it, and
what it gives has the property `Q` there. -/
def Settles (s : Store) (Q : Store → α → Prop) (m : Eval α) : Prop :=
  Ensures m s (fun a t ↦ s.Rises t ∧ Q t a) fun _ t ↦ s.Rises t

namespace Settles

variable {Q R : Store → α → Prop} {m : Eval α}

protected theorem pure (hs : s.Layered) {a : α} (h : Q s a) : Settles s Q (pure a) :=
  ⟨hs.rises, h⟩

protected theorem throw (hs : s.Layered) (e : Stop) : Settles s Q (throw e) :=
  hs.rises

theorem fail (hs : s.Layered) (e : RuntimeError) : Settles s Q (Eval.fail e) :=
  hs.rises

protected theorem bind {Q : Store → β → Prop} {f : α → Eval β} (hm : Settles s R m)
    (hf : ∀ (a : α) (t : Store), s.Rises t → R t a → Settles t Q (f a)) :
    Settles s Q (m >>= f) := by
  unfold Settles
  rw [ensures_bind]
  refine Ensures.imp hm (fun a t ha ↦ ?_) fun _ _ ht ↦ ht
  refine Ensures.imp (hf a t ha.1 ha.2) (fun b u hb ↦ ?_) fun _ u hu ↦ ?_
  · exact ⟨ha.1.trans hb.1, hb.2⟩
  · exact ha.1.trans hu

protected theorem ite {p : Prop} [Decidable p] {n : Eval α} (hm : Settles s Q m)
    (hn : Settles s Q n) : Settles s Q (if p then m else n) := by
  split
  · exact hm
  · exact hn

theorem ofExcept (hs : s.Layered) {x : Except RuntimeError α} (h : ∀ a, x = .ok a → Q s a) :
    Settles s Q (Eval.ofExcept x) := by
  cases x with
  | ok a => exact .pure hs (h a rfl)
  | error e => exact .fail hs e

theorem newHash (hs : s.Layered) {table : Table}
    (h : ∀ e ∈ table, s.Covers e.key ∧ s.Covers e.value) :
    Settles s Store.Covers (Eval.newHash table) :=
  ⟨hs.allocate h, by simp [Store.Covers, Value.Before]⟩

theorem after (h : Settles s Q m) : (after m s).Layered :=
  Ensures.of_after (h.imp (fun _ _ ha ↦ ha.1.layered) fun _ _ he ↦ he.layered)

end Settles

/-! ### Operations -/

theorem Store.MakesArray.rises {v : Value} (h : s.MakesArray s.Covers v t) (hs : s.Layered) :
    s.Rises t ∧ t.Covers v := by
  obtain ⟨xs, hxs, rfl, rfl⟩ := h
  exact ⟨hs.allocate hxs, by simp [Store.Covers, Value.Before, Store.allocate]⟩

theorem Builds.settles {m : Eval Value} (h : Builds s.Covers s m) (hs : s.Layered) :
    Settles s Store.Covers m := by
  refine Ensures.imp h (fun v t hv ↦ ?_) fun _ t ht ↦ ?_
  · rcases hv with ⟨hscalar, rfl⟩ | hmade
    · exact ⟨hs.rises, t.covers_of_scalar v hscalar⟩
    · exact hmade.rises hs
  · rw [ht]
    exact hs.rises

theorem Builtin.Effect.rises {operation : Operation} {args : List Value} {v : Value}
    (h : Builtin.Effect s.Covers operation scope args s v t) (hs : s.Layered)
    (hargs : ∀ v ∈ args, s.Covers v) : s.Rises t ∧ t.Covers v := by
  cases h with
  | refusal message => exact ⟨hs.rises, trivial⟩
  | query _ hv => exact ⟨hs.rises, hv⟩
  | nothingLeft => exact ⟨hs.rises, trivial⟩
  | array _ hmade => exact hmade.rises hs
  | @deletion id key k _ heq _ =>
    subst heq
    have herase := hs.erase id k
    exact ⟨herase, Store.Covers.rises (hargs _ (by simp)) herase⟩
  | output => exact ⟨hs.write scope _, trivial⟩

theorem Builtin.settles_call (hs : s.Layered) (b : Builtin) {args : List Value}
    (hargs : ∀ v ∈ args, s.Covers v) : Settles s Store.Covers (b.call scope args) := by
  refine (Builtin.call_effect s.covers_of_scalar hs.holds b hargs).imp (fun v t hv ↦ ?_)
    fun _ t ht ↦ ?_
  · exact hv.rises hs hargs
  · rw [ht.2]
    exact hs.rises

namespace Eval

theorem settles_index (hs : s.Layered) (target subscript : Value) :
    Settles s Store.Covers (index target subscript) := by
  refine (index_effect hs.holds s.covers_of_scalar target subscript).imp (fun v t hv ↦ ?_)
    fun _ t ht ↦ ?_
  · obtain ⟨hv, rfl⟩ := hv
    exact ⟨hs.rises, hv⟩
  · rw [ht]
    exact hs.rises

theorem settles_binding (hs : s.Layered) (name : String) :
    Settles s Store.Covers (binding scope name) := by
  unfold binding Settles
  rw [ensures_bind, ensures_get]
  split
  · next v hv => exact ⟨hs.rises, hs.holds.lookupWithin hv⟩
  · exact hs.rises

theorem settles_identifier (hs : s.Layered) (known : List Builtin) (name : String) :
    Settles s Store.Covers (identifier known scope name) := by
  unfold identifier Settles
  rw [ensures_bind, ensures_get]
  split
  · next v hv => exact ⟨hs.rises, hs.holds.lookupWithin hv⟩
  · split
    · exact ⟨hs.rises, trivial⟩
    · exact hs.rises

theorem settles_step (hs : s.Layered) (direction : StepDirection) (place : StepPlace)
    (operand : Expr) : Settles s Store.Covers (step scope direction place operand) := by
  unfold step
  split
  · next name =>
    refine (settles_binding hs name).bind fun old t ht hold ↦ ?_
    have hnew : Settles t Store.Covers (ofExcept (stepped direction name old)) :=
      .ofExcept ht.layered fun v hv ↦ t.covers_of_scalar v (stepped_scalar hv)
    refine hnew.bind fun new u hu hnew ↦ ?_
    have hbind := hu.layered.bind scope name hnew
    unfold Settles
    rw [ensures_bind, ensures_modify]
    cases place with
    | before => exact ⟨hbind, hnew.rises hbind⟩
    | after => exact ⟨hbind, (hold.rises hu).rises hbind⟩
  · exact .fail hs _

/-! ### Evaluation -/

/-- Code without stores that is evaluated up to a depth keeps the store layered. -/
structure SettlesAt (known : List Builtin) (depth : Nat) : Prop where
  expr {s : Store} (scope : ScopeId) (hs : s.Layered) {e : Expr} : e.storeFree = true →
    Settles s Store.Covers (expr known depth scope e)
  optional {s : Store} (scope : ScopeId) (hs : s.Layered) {e : Option Expr} :
    Expr.storeFreeOption e = true →
      Settles s (fun t r ↦ ∀ v ∈ r, t.Covers v) (optional known depth scope e)
  exprs {s : Store} (scope : ScopeId) (hs : s.Layered) {es : List Expr} :
    Expr.storeFreeList es = true →
      Settles s (fun t vs ↦ ∀ v ∈ vs, t.Covers v) (exprs known depth scope es)
  entries {s : Store} (scope : ScopeId) (hs : s.Layered) {pairs : List (Expr × Expr)}
    {table : Table} : Expr.storeFreePairs pairs = true →
      (∀ e ∈ table, s.Covers e.key ∧ s.Covers e.value) →
      Settles s (fun t table ↦ ∀ e ∈ table, t.Covers e.key ∧ t.Covers e.value)
        (entries known depth scope pairs table)
  block {s : Store} (scope : ScopeId) (hs : s.Layered) {ss : List Stmt} :
    Stmt.storeFreeList ss = true →
      Settles s (fun t r ↦ ∀ v ∈ r, t.Covers v) (block known depth scope ss)
  stmt {s : Store} (scope : ScopeId) (hs : s.Layered) {statement : Stmt} :
    statement.storeFree = true →
      Settles s (fun t r ↦ ∀ v ∈ r, t.Covers v) (stmt known depth scope statement)
  whileLoop {s : Store} (scope : ScopeId) (hs : s.Layered) {condition : Expr}
    {body : List Stmt} : condition.storeFree = true → Stmt.storeFreeList body = true →
      Settles s Store.Covers (whileLoop known depth scope condition body)
  forLoop {s : Store} (scope : ScopeId) (hs : s.Layered) {condition : Expr} {advance : Stmt}
    {body : List Stmt} : condition.storeFree = true → advance.storeFree = true →
      Stmt.storeFreeList body = true →
      Settles s Store.Covers (forLoop known depth scope condition advance body)
  apply {s : Store} (scope : ScopeId) (hs : s.Layered) (callee : Value) {args : List Value} :
    (∀ v ∈ args, s.Covers v) → Settles s Store.Covers (apply known depth scope callee args)

namespace SettlesAt

variable {known : List Builtin} {depth : Nat} (ih : SettlesAt known depth) (scope : ScopeId)
  (hs : s.Layered)

include ih hs

theorem apply_succ (callee : Value) {args : List Value} (hargs : ∀ v ∈ args, s.Covers v) :
    Settles s Store.Covers (Eval.apply known (depth + 1) scope callee args) := by
  rw [Eval.apply.eq_def]
  dsimp only
  split
  · next id =>
    have henter := hs.enter hargs (s.closure id)
    unfold Settles
    simp only [ensures_bind, ensures_get, ensures_modifyGet, ensures_modify, ensures_pure]
    refine Ensures.imp (ih.block ⟨s.scopes.size⟩ henter.layered (hs.storeFree_closure id))
      (fun r t hr ↦ ?_) fun _ t ht ↦ henter.trans ht
    refine ⟨henter.trans hr.1, Value.holds_getD_null trivial fun v hv ↦ ?_⟩
    obtain ⟨w, hw, rfl⟩ := Option.map_eq_some_iff.mp hv
    exact Store.covers_result (hr.2 w hw)
  · next b =>
    refine (Builtin.settles_call hs b hargs).bind fun v t ht hv ↦ ?_
    split
    · exact .fail ht.layered _
    · exact .pure ht.layered hv
  · exact .fail hs _

theorem expr_succ {e : Expr} (he : e.storeFree = true) :
    Settles s Store.Covers (Eval.expr known (depth + 1) scope e) := by
  have hscalar : ∀ {v : Value}, v.IsScalar → Settles s Store.Covers (pure v) :=
    fun h ↦ .pure hs (s.covers_of_scalar _ h)
  rw [Eval.expr.eq_def]
  cases e with
  | name p text => exact settles_identifier hs known text
  | int p n => exact hscalar trivial
  | float p x => exact hscalar trivial
  | str p text => exact hscalar trivial
  | bool p b => exact hscalar trivial
  | unary p operator operand =>
    rw [Expr.storeFree] at he
    refine (ih.expr scope hs he).bind fun v t ht _ ↦ ?_
    exact .ofExcept ht.layered fun w hw ↦ t.covers_of_scalar w (unary_scalar hw)
  | binary p operator left right =>
    rw [Expr.storeFree, Bool.and_eq_true] at he
    refine (ih.expr scope hs he.1).bind fun v t ht _ ↦ ?_
    refine (ih.expr scope ht.layered he.2).bind fun w u hu _ ↦ ?_
    exact (builds_binary hu.layered.holds operator v w).settles hu.layered
  | conditional p condition consequence alternative =>
    simp only [Expr.storeFree, Bool.and_eq_true] at he
    refine (ih.expr scope hs he.1.1).bind fun c t ht _ ↦ ?_
    have hbody : ∀ {body : Block}, body.storeFree = true → Settles t Store.Covers (do
        return (← Eval.block known depth scope body.body).getD .null) := fun hb ↦
      (ih.block scope ht.layered (Block.storeFreeList_body hb)).bind fun r u hu hr ↦
        .pure hu.layered (Value.holds_getD_null trivial hr)
    refine .ite (hbody he.1.2) ?_
    cases alternative with
    | some other => exact hbody he.2
    | none => exact .pure ht.layered trivial
  | function p parameters body =>
    rw [Expr.storeFree] at he
    exact ⟨hs.close he, trivial⟩
  | call p callee arguments =>
    rw [Expr.storeFree, Bool.and_eq_true] at he
    refine (ih.expr scope hs he.1).bind fun f t ht _ ↦ ?_
    refine (ih.exprs scope ht.layered he.2).bind fun vs u hu hvs ↦ ?_
    exact ih.apply scope hu.layered f hvs
  | array p elements =>
    rw [Expr.storeFree] at he
    refine (ih.exprs scope hs he).bind fun vs t ht hvs ↦ ?_
    exact (builds_newArray (by simpa using hvs)).settles ht.layered
  | hash p pairs =>
    rw [Expr.storeFree] at he
    exact (ih.entries scope hs he (by simp)).bind fun table t ht htable ↦
      .newHash ht.layered htable
  | index p target subscript =>
    rw [Expr.storeFree, Bool.and_eq_true] at he
    refine (ih.expr scope hs he.1).bind fun v t ht _ ↦ ?_
    exact (ih.expr scope ht.layered he.2).bind fun i u hu _ ↦ settles_index hu.layered v i
  | slice p target start stop =>
    simp only [Expr.storeFree, Bool.and_eq_true] at he
    refine (ih.expr scope hs he.1.1).bind fun v t ht _ ↦ ?_
    refine (ih.optional scope ht.layered he.1.2).bind fun i u hu _ ↦ ?_
    refine (ih.optional scope hu.layered he.2).bind fun j w hw _ ↦ ?_
    exact (builds_slice hw.layered.holds v i j).settles hw.layered
  | whileLoop p condition body =>
    rw [Expr.storeFree, Bool.and_eq_true] at he
    exact ih.whileLoop scope hs he.1 (Block.storeFreeList_body he.2)
  | forLoop p start condition advance body =>
    simp only [Expr.storeFree, Bool.and_eq_true] at he
    obtain ⟨⟨⟨hstart, hcond⟩, hadv⟩, hbody⟩ := he
    refine (ih.stmt scope hs hstart).bind fun r t ht hr ↦ ?_
    split
    · exact .pure ht.layered (hr _ rfl)
    · exact ih.forLoop scope ht.layered hcond hadv (Block.storeFreeList_body hbody)
  | step p direction place operand => exact settles_step hs direction place operand
  | range p sort start stop =>
    rw [Expr.storeFree, Bool.and_eq_true] at he
    refine (ih.expr scope hs he.1).bind fun a t ht _ ↦ ?_
    refine (ih.expr scope ht.layered he.2).bind fun b u hu _ ↦ ?_
    exact (builds_range u.covers_of_scalar sort a b).settles hu.layered

theorem optional_succ {e : Option Expr} (he : Expr.storeFreeOption e = true) :
    Settles s (fun t r ↦ ∀ v ∈ r, t.Covers v) (Eval.optional known (depth + 1) scope e) := by
  cases e with
  | none => exact .pure hs (by simp)
  | some e =>
    exact (ih.expr scope hs he).bind fun v t ht hv ↦ .pure ht.layered (by simpa using hv)

theorem exprs_succ {es : List Expr} (he : Expr.storeFreeList es = true) :
    Settles s (fun t vs ↦ ∀ v ∈ vs, t.Covers v) (Eval.exprs known (depth + 1) scope es) := by
  cases es with
  | nil => exact .pure hs (by simp)
  | cons e es =>
    rw [Expr.storeFreeList, Bool.and_eq_true] at he
    refine (ih.expr scope hs he.1).bind fun v t ht hv ↦ ?_
    refine (ih.exprs scope ht.layered he.2).bind fun vs u hu hvs ↦ .pure hu.layered ?_
    exact List.forall_mem_cons.mpr ⟨hv.rises hu, hvs⟩

theorem entries_succ {pairs : List (Expr × Expr)} {table : Table}
    (hp : Expr.storeFreePairs pairs = true)
    (htable : ∀ e ∈ table, s.Covers e.key ∧ s.Covers e.value) :
    Settles s (fun t table ↦ ∀ e ∈ table, t.Covers e.key ∧ t.Covers e.value)
      (Eval.entries known (depth + 1) scope pairs table) := by
  cases pairs with
  | nil => exact .pure hs htable
  | cons pair pairs =>
    obtain ⟨k, e⟩ := pair
    simp only [Expr.storeFreePairs, Bool.and_eq_true] at hp
    obtain ⟨⟨hk, he⟩, hpairs⟩ := hp
    refine (ih.expr scope hs hk).bind fun key t ht hkey ↦ ?_
    have hslot : Settles t (fun _ _ ↦ True) (ofExcept (keyOf key)) :=
      .ofExcept ht.layered fun _ _ ↦ trivial
    refine hslot.bind fun slot u hu _ ↦ ?_
    refine (ih.expr scope hu.layered he).bind fun value w hw hvalue ↦ ?_
    have hrises := hu.trans hw
    refine ih.entries scope hw.layered hpairs fun e he ↦ ?_
    rcases Table.mem_insert he with rfl | he
    · exact ⟨hkey.rises hrises, hvalue⟩
    · have hall := ht.trans hrises
      exact ⟨(htable e he).1.rises hall, (htable e he).2.rises hall⟩

theorem block_succ {ss : List Stmt} (hss : Stmt.storeFreeList ss = true) :
    Settles s (fun t r ↦ ∀ v ∈ r, t.Covers v) (Eval.block known (depth + 1) scope ss) := by
  rcases ss with _ | ⟨statement, _ | ⟨next, ss⟩⟩
  · exact .pure hs (by simp)
  · rw [Stmt.storeFreeList, Bool.and_eq_true] at hss
    exact ih.stmt scope hs hss.1
  · rw [Stmt.storeFreeList, Bool.and_eq_true] at hss
    refine (ih.stmt scope hs hss.1).bind fun r t ht hr ↦ ?_
    exact .ite (.pure ht.layered hr) (ih.block scope ht.layered hss.2)

theorem stmt_succ {statement : Stmt} (hst : statement.storeFree = true) :
    Settles s (fun t r ↦ ∀ v ∈ r, t.Covers v) (Eval.stmt known (depth + 1) scope statement) := by
  rw [Eval.stmt.eq_def]
  cases statement with
  | bind p name e =>
    rw [Stmt.storeFree] at hst
    refine (ih.expr scope hs hst).bind fun v t ht hv ↦ ?_
    refine .ite (.pure ht.layered (by simpa using hv)) ?_
    exact ⟨ht.layered.bind scope name.text hv, by simp⟩
  | store p name subscript e => cases hst
  | ret p e =>
    rw [Stmt.storeFree] at hst
    refine (ih.expr scope hs hst).bind fun v t ht hv ↦ .pure ht.layered ?_
    simpa using Store.covers_toPending hv
  | expr p e =>
    rw [Stmt.storeFree] at hst
    exact (ih.expr scope hs hst).bind fun v t ht hv ↦ .pure ht.layered (by simpa using hv)
  | comment p text => exact .pure hs (by simp)

theorem whileLoop_succ {condition : Expr} {body : List Stmt} (hc : condition.storeFree = true)
    (hb : Stmt.storeFreeList body = true) :
    Settles s Store.Covers (Eval.whileLoop known (depth + 1) scope condition body) := by
  refine (ih.expr scope hs hc).bind fun c t ht _ ↦ .ite ?_ (.pure ht.layered trivial)
  refine (ih.block scope ht.layered hb).bind fun r u hu hr ↦ ?_
  split
  · exact .pure hu.layered (hr _ rfl)
  · exact ih.whileLoop scope hu.layered hc hb

theorem forLoop_succ {condition : Expr} {advance : Stmt} {body : List Stmt}
    (hc : condition.storeFree = true) (ha : advance.storeFree = true)
    (hb : Stmt.storeFreeList body = true) :
    Settles s Store.Covers (Eval.forLoop known (depth + 1) scope condition advance body) := by
  refine (ih.expr scope hs hc).bind fun c t ht _ ↦ .ite ?_ (.pure ht.layered trivial)
  refine (ih.block scope ht.layered hb).bind fun r u hu hr ↦ ?_
  split
  · exact .pure hu.layered (hr _ rfl)
  · refine (ih.stmt scope hu.layered ha).bind fun a w hw ha' ↦ ?_
    split
    · exact .pure hw.layered (ha' _ rfl)
    · exact ih.forLoop scope hw.layered hc ha hb

end SettlesAt

/-- Code without stores keeps the store layered at every depth. -/
theorem settlesAt (known : List Builtin) (depth : Nat) : SettlesAt known depth := by
  induction depth with
  | zero =>
    exact ⟨fun _ hs _ _ ↦ .throw hs _, fun _ hs _ _ ↦ .throw hs _, fun _ hs _ _ ↦ .throw hs _,
      fun _ hs _ _ _ _ ↦ .throw hs _, fun _ hs _ _ ↦ .throw hs _, fun _ hs _ _ ↦ .throw hs _,
      fun _ hs _ _ _ _ ↦ .throw hs _, fun _ hs _ _ _ _ _ _ ↦ .throw hs _,
      fun _ hs _ _ _ ↦ .throw hs _⟩
  | succ depth ih =>
    exact ⟨ih.expr_succ, ih.optional_succ, ih.exprs_succ, ih.entries_succ, ih.block_succ,
      ih.stmt_succ, ih.whileLoop_succ, ih.forLoop_succ, ih.apply_succ⟩

theorem settles_program (known : List Builtin) (depth : Nat) (scope : ScopeId) (hs : s.Layered)
    {program : Program} (h : ∀ statement ∈ program, statement.storeFree = true) :
    Settles s (fun t r ↦ ∀ v ∈ r, t.Covers v) (Eval.program known depth scope program) := by
  refine ((settlesAt known depth).block scope hs (Stmt.storeFreeList_iff.mpr h)).bind
    fun r t ht hr ↦ .pure ht.layered fun v hv ↦ ?_
  obtain ⟨w, hw, rfl⟩ := Option.map_eq_some_iff.mp hv
  exact Store.covers_result (hr w hw)

end Eval

/-- Every store on the way of code without stores is layered. -/
theorem Visits.layered {known : List Builtin}
    (h : Visits known (fun e ↦ e.storeFree = true) (fun statement ↦ statement.storeFree = true) s t)
    (hs : s.Layered) : t.Layered := by
  induction h with
  | start => exact hs
  | expr depth scope he _ ih => exact ((Eval.settlesAt known depth).expr scope ih he).after
  | stmt depth scope hst _ ih => exact ((Eval.settlesAt known depth).stmt scope ih hst).after
  | program depth scope hp _ ih => exact (Eval.settles_program known depth scope ih hp).after
  | enter depth scope id he _ hu ih =>
    rw [Expr.storeFree, Bool.and_eq_true] at he
    obtain ⟨hu, hvalues⟩ := Ensures.of_ok ((Eval.settlesAt known depth).exprs scope ih he.2) hu
    exact (hu.layered.enter hvalues _).layered

/-- Where no code stores under an index, neither the program nor a function that was there before,
every cell in every store that evaluation passes through refers to earlier cells only, if this was
so at the start. So values are well founded: none lies in itself, and every value has a text and can
be compared with every other. -/
theorem visited_wellFounded (known : List Builtin) (hs : s.Layered)
    (ht : Visits known (fun e ↦ e.storeFree = true) (fun statement ↦ statement.storeFree = true)
      s t) :
    (∀ (i : Nat) (cell : Cell), t.cells[i]? = some cell → cell.Holds (·.Before i)) ∧
    (WellFounded fun part whole ↦ t.Part whole part) ∧ t.Acyclic ∧
    ∀ v w : Value, (t.inspect? v).isSome ∧ (t.equal? v w).isSome := by
  have hcells := (ht.layered hs).cells
  have hacyclic := hcells.acyclic
  exact ⟨hcells, hcells.wellFounded, hacyclic,
    fun v w ↦ ⟨hacyclic.isSome_inspect? v, hacyclic.isSome_equal? v w⟩⟩

/-- A store with an array `a` and a function `f` that adds its argument to it. -/
def addingStore : Store :=
  ⟨#[.array #[.int 1]],
    #[⟨[⟨"x", default⟩], .mk default [.expr default (.call default (.name default "push")
      [.name default "a", .name default "x"])], ⟨0⟩⟩],
    #[⟨[("a", .array ⟨0⟩), ("f", .function ⟨0⟩)], none, ⟨0⟩⟩], #[""]⟩

/-- Shares `a` between new arrays and a hash, takes an entry out of the hash and puts what is left
behind a slice. -/
def sharingProgram : Program :=
  [.bind default ⟨"b", default⟩ (.call default (.name default "f")
      [.array default [.name default "a", .name default "a"]]),
    .bind default ⟨"h", default⟩ (.hash default
      [(.int default 1, .name default "b"), (.int default 2, .name default "a")]),
    .expr default (.call default (.name default "delete") [.name default "h", .int default 1]),
    .expr default (.binary default .add
      (.slice default (.name default "b") none (some (.int default 1)))
      (.array default [.name default "h"]))]

theorem visited_wellFounded_sharing :
    let t := after (Eval.program Builtin.table 19 ⟨0⟩ sharingProgram) addingStore
    addingStore.Layered ∧ (∀ statement ∈ sharingProgram, statement.storeFree = true) ∧
    t.cells.size = 7 ∧ t.Acyclic ∧
    (t.inspect? (.array ⟨2⟩)).isSome ∧ (t.equal? (.array ⟨2⟩) (.array ⟨6⟩)).isSome ∧
    t.inspect? (.array ⟨2⟩) = some "[1, [[1], [1]]]" ∧
    t.inspect? (.array ⟨6⟩) = some "[1, \x7b2: [1]\x7d]" ∧
    t.equal? (.array ⟨2⟩) (.array ⟨6⟩) = some false := by
  intro t
  have hs : addingStore.Layered := by
    refine ⟨fun i cell hi ↦ ?_, ?_, ?_⟩
    · have hmem : cell ∈ addingStore.cells := Array.mem_of_getElem? hi
      obtain rfl : cell = .array #[.int 1] := by simpa [addingStore] using hmem
      simp [Cell.Holds, Value.Before]
    · simp only [addingStore, Array.mem_singleton, forall_eq, List.forall_mem_cons]
      exact ⟨Nat.zero_lt_one, trivial, by simp⟩
    · simp [addingStore, Block.storeFree, Stmt.storeFreeList, Stmt.storeFree, Expr.storeFree,
        Expr.storeFreeList]
  have hfree : ∀ statement ∈ sharingProgram, statement.storeFree = true :=
    Stmt.storeFreeList_iff.mp (by decide)
  obtain ⟨-, -, hacyclic, hends⟩ :=
    visited_wellFounded Builtin.table hs (.program 19 ⟨0⟩ hfree .start)
  obtain ⟨htext, hequal⟩ := hends (.array ⟨2⟩) (.array ⟨6⟩)
  exact ⟨hs, hfree, by decide +kernel, hacyclic, htext, hequal, by decide +kernel,
    by decide +kernel, by decide +kernel⟩

end Treewalk
