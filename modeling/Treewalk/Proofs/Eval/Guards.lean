import Treewalk.Proofs.Eval.Closures
import Treewalk.Proofs.Eval.Confinement
import Treewalk.Proofs.Eval.Course

/-!
# Guarded code stores no pending return

A `return` inside an expression makes a pending return of it. Bindings and stores pass it on, but an
element, a value of a hash or an argument that comes to one becomes data. Code is guarded if this
cannot happen (`Expr.guarded`): at these places stand only expressions that never come to a pending
return (`Expr.mayReturn`). Evaluating guarded code keeps a store without pending returns as it is in
this respect, and a program or a call never comes to one.
-/

set_option autoImplicit false
set_option relaxedAutoImplicit false

namespace Treewalk

/-- Anything but a pending return. -/
def Value.IsData (v : Value) : Prop :=
  v.isPending = false

/-! ### Code in which returns are passed on -/

mutual

/-- Whether the value of an expression may be a pending return. -/
def Expr.mayReturn : Expr → Bool
  | .conditional _ _ consequence alternative =>
    consequence.mayReturn || Block.optionMayReturn alternative
  | .whileLoop _ _ body => body.mayReturn
  | .forLoop _ start _ advance body => start.mayReturn || advance.mayReturn || body.mayReturn
  | _ => false

/-- Whether a statement may end in a pending return. -/
def Stmt.mayReturn : Stmt → Bool
  | .bind _ _ value => value.mayReturn
  | .store _ _ _ value => value.mayReturn
  | .ret .. => true
  | .expr _ expression => expression.mayReturn
  | .comment .. => false

def Stmt.anyMayReturn : List Stmt → Bool
  | [] => false
  | s :: ss => s.mayReturn || Stmt.anyMayReturn ss

def Block.mayReturn : Block → Bool
  | .mk _ body => Stmt.anyMayReturn body

def Block.optionMayReturn : Option Block → Bool
  | none => false
  | some block => block.mayReturn

end

mutual

/-- Whether no element, no value of a hash and no argument may be a pending return, anywhere in an
expression and in the functions it makes. -/
def Expr.guarded : Expr → Bool
  | .name .. | .int .. | .float .. | .str .. | .bool .. | .step .. => true
  | .unary _ _ operand => operand.guarded
  | .binary _ _ left right => left.guarded && right.guarded
  | .conditional _ condition consequence alternative =>
    condition.guarded && consequence.guarded && Block.guardedOption alternative
  | .function _ _ body => body.guarded
  | .call _ callee arguments => callee.guarded && Expr.guardedData arguments
  | .array _ elements => Expr.guardedData elements
  | .hash _ pairs => Expr.guardedPairs pairs
  | .index _ target subscript => target.guarded && subscript.guarded
  | .slice _ target start stop =>
    target.guarded && Expr.guardedOption start && Expr.guardedOption stop
  | .whileLoop _ condition body => condition.guarded && body.guarded
  | .forLoop _ start condition advance body =>
    start.guarded && condition.guarded && advance.guarded && body.guarded
  | .range _ _ start stop => start.guarded && stop.guarded

def Expr.guardedOption : Option Expr → Bool
  | none => true
  | some e => e.guarded

/-- Whether expressions are guarded and none of their values may be a pending return. -/
def Expr.guardedData : List Expr → Bool
  | [] => true
  | e :: es => e.guarded && !e.mayReturn && Expr.guardedData es

def Expr.guardedPairs : List (Expr × Expr) → Bool
  | [] => true
  | (key, value) :: pairs =>
    key.guarded && value.guarded && !value.mayReturn && Expr.guardedPairs pairs

/-- Whether the expressions of a statement are guarded. -/
def Stmt.guarded : Stmt → Bool
  | .bind _ _ value => value.guarded
  | .store _ _ subscript value => subscript.guarded && value.guarded
  | .ret _ value => value.guarded
  | .expr _ expression => expression.guarded
  | .comment .. => true

def Stmt.allGuarded : List Stmt → Bool
  | [] => true
  | s :: ss => s.guarded && Stmt.allGuarded ss

def Block.guarded : Block → Bool
  | .mk _ body => Stmt.allGuarded body

def Block.guardedOption : Option Block → Bool
  | none => true
  | some block => block.guarded

end

theorem Stmt.allGuarded_iff {ss : List Stmt} :
    Stmt.allGuarded ss = true ↔ ∀ s ∈ ss, s.guarded = true := by
  induction ss with
  | nil => simp [allGuarded]
  | cons s ss ih => simp [allGuarded, ih]

/-- No pending return is stored, and the bodies of all functions are guarded. -/
structure Store.Clear (s : Store) : Prop where
  data : s.Holds Value.IsData
  closures : ∀ f ∈ s.closures, f.body.guarded = true

/-- Data or, where it is permitted, a pending return of data. -/
def Value.Allowed (permitted : Bool) (v : Value) : Prop :=
  v.result.IsData ∧ (v.isPending = true → permitted = true)

namespace Value

variable {v : Value} {a b : Bool}

theorem IsData.allowed (h : v.IsData) : v.Allowed a := by
  refine ⟨?_, fun hp ↦ ?_⟩
  · cases v with
    | pending w => cases h
    | _ => rfl
  · rw [h] at hp
    cases hp

theorem Allowed.isData (h : v.Allowed false) : v.IsData :=
  Bool.eq_false_iff.mpr fun hp ↦ Bool.false_ne_true (h.2 hp)

theorem Allowed.imp (h : v.Allowed a) (hab : a = true → b = true) : v.Allowed b :=
  ⟨h.1, fun hp ↦ hab (h.2 hp)⟩

theorem Allowed.toPending (h : v.Allowed a) : v.toPending.Allowed true := by
  refine ⟨?_, fun _ ↦ rfl⟩
  cases v <;> exact h.1

end Value

namespace Store.Clear

variable {s : Store}

theorem guarded_closure (h : s.Clear) (id : ClosureId) :
    Stmt.allGuarded (s.closure id).body.body = true := by
  have hbody : (s.closure id).body.guarded = true := by
    unfold Store.closure
    rw [Array.getD_eq_getD_getElem?]
    cases hid : s.closures[id.index]? with
    | none => rfl
    | some f => exact h.closures f (Array.mem_of_getElem? hid)
  cases hb : (s.closure id).body with
  | mk position body =>
    rw [hb] at hbody
    exact hbody

theorem enter (h : s.Clear) {args : List Value} (hargs : ∀ v ∈ args, v.IsData) (f : Closure) :
    (s.enter f args).Clear :=
  ⟨h.data.enter hargs, by rw [Store.closures_enter]; exact h.closures⟩

end Store.Clear

theorem ofMade_isData : OfMade Value.IsData :=
  ⟨fun _ h ↦ h.1.2⟩

theorem Value.isData_of_ofValue? {v : Value} {k : Key} (h : Key.ofValue? v = some k) :
    v.IsData := by
  cases v with
  | pending w => cases h
  | _ => rfl

/-! ### Parts of computations -/

/-- Started without pending returns in the store, a computation leaves none there, and its result
has the property `Q`. -/
def Clears {α : Type} (Q : α → Prop) (m : Eval α) : Prop :=
  ∀ s : Store, s.Clear → Ensures m s (fun a t ↦ t.Clear ∧ Q a) fun _ t ↦ t.Clear

namespace Clears

variable {α β : Type} {Q R : α → Prop} {m : Eval α}

theorem imp (h : Clears Q m) (hQ : ∀ a, Q a → R a) : Clears R m :=
  fun s hs ↦ (h s hs).imp (fun a _ hq ↦ ⟨hq.1, hQ a hq.2⟩) fun _ _ he ↦ he

protected theorem pure {a : α} (h : Q a) : Clears Q (pure a) :=
  fun _ hs ↦ ensures_pure.mpr ⟨hs, h⟩

protected theorem throw (e : Stop) : Clears Q (throw e) :=
  fun _ hs ↦ ensures_throw.mpr hs

theorem fail (e : RuntimeError) : Clears Q (Eval.fail e) :=
  .throw _

protected theorem bind {Q : β → Prop} {f : α → Eval β} (hm : Clears R m)
    (hf : ∀ a, R a → Clears Q (f a)) : Clears Q (m >>= f) := by
  intro s hs
  rw [ensures_bind]
  exact (hm s hs).imp (fun a t hq ↦ hf a hq.2 t hq.1) fun _ _ he ↦ he

protected theorem ite {p : Prop} [Decidable p] {n : Eval α} (hm : p → Clears Q m)
    (hn : ¬ p → Clears Q n) : Clears Q (if p then m else n) := by
  split
  next hp => exact hm hp
  next hp => exact hn hp

/-- Operations store only data, and they leave the closures as they are. -/
theorem of_confined (scope : ScopeId) (hc : Confined Value.IsData scope Q m)
    (ho : Oblivious m) : Clears Q m := by
  intro s hs
  refine ((hc s hs.data).and (ho.keeps_closures s)).imp ?_ ?_
  · rintro a t ⟨⟨hev, hq⟩, hkept⟩
    exact ⟨⟨hev.holds hs.data, hkept ▸ hs.closures⟩, hq⟩
  · rintro e t ⟨hev, hkept⟩
    exact ⟨hev.holds hs.data, hkept ▸ hs.closures⟩

theorem ofExcept {x : Except RuntimeError α} (h : ∀ a, x = .ok a → Q a) :
    Clears Q (Eval.ofExcept x) :=
  of_confined default (.ofExcept h) (.ofExcept x)

theorem newHash {t : Table} (h : ∀ e ∈ t, e.key.IsData ∧ e.value.IsData) :
    Clears Value.IsData (Eval.newHash t) :=
  fun _ hs ↦ ensures_modifyGet.mpr ⟨⟨hs.data.allocate h, hs.closures⟩, rfl⟩

theorem newClosure {f : Closure} (h : f.body.guarded = true) :
    Clears Value.IsData (Eval.newClosure f) :=
  fun _ hs ↦ ensures_modifyGet.mpr
    ⟨⟨⟨hs.data.cells, hs.data.bindings⟩, forall_mem_push hs.closures h⟩, rfl⟩

end Clears

/-! ### Evaluation -/

namespace Eval

/-- Guarded code that is evaluated up to a depth stores no pending return and comes to one only
where it may. -/
structure ClearsAt (known : List Builtin) (depth : Nat) : Prop where
  expr (scope : ScopeId) {e : Expr} : e.guarded = true →
    Clears (Value.Allowed e.mayReturn) (expr known depth scope e)
  optional (scope : ScopeId) {e : Option Expr} : Expr.guardedOption e = true →
    Clears (fun _ ↦ True) (optional known depth scope e)
  exprs (scope : ScopeId) {es : List Expr} : Expr.guardedData es = true →
    Clears (fun vs ↦ ∀ v ∈ vs, v.IsData) (exprs known depth scope es)
  entries (scope : ScopeId) {pairs : List (Expr × Expr)} {t : Table} :
    Expr.guardedPairs pairs = true → (∀ e ∈ t, e.key.IsData ∧ e.value.IsData) →
      Clears (fun t : Table ↦ ∀ e ∈ t, e.key.IsData ∧ e.value.IsData)
        (entries known depth scope pairs t)
  block (scope : ScopeId) {ss : List Stmt} : Stmt.allGuarded ss = true →
    Clears (fun r ↦ ∀ v ∈ r, v.Allowed (Stmt.anyMayReturn ss)) (block known depth scope ss)
  stmt (scope : ScopeId) {statement : Stmt} : statement.guarded = true →
    Clears (fun r ↦ ∀ v ∈ r, v.Allowed statement.mayReturn) (stmt known depth scope statement)
  whileLoop (scope : ScopeId) {condition : Expr} {body : List Stmt} :
    condition.guarded = true → Stmt.allGuarded body = true →
      Clears (Value.Allowed (Stmt.anyMayReturn body))
        (whileLoop known depth scope condition body)
  forLoop (scope : ScopeId) {condition : Expr} {advance : Stmt} {body : List Stmt} :
    condition.guarded = true → advance.guarded = true → Stmt.allGuarded body = true →
      Clears (Value.Allowed (advance.mayReturn || Stmt.anyMayReturn body))
        (forLoop known depth scope condition advance body)
  apply (scope : ScopeId) (callee : Value) {args : List Value} :
    (∀ v ∈ args, v.IsData) → Clears Value.IsData (apply known depth scope callee args)

section Step

variable {known : List Builtin} {depth : Nat} (ih : ClearsAt known depth) (scope : ScopeId)

include ih

theorem ClearsAt.apply_succ (callee : Value) {args : List Value}
    (hargs : ∀ v ∈ args, v.IsData) :
    Clears Value.IsData (Eval.apply known (depth + 1) scope callee args) := by
  rw [Eval.apply.eq_def]
  dsimp only
  split
  next id =>
    intro s hs
    simp only [ensures_bind, ensures_get, ensures_modifyGet, ensures_modify, ensures_pure]
    have hbody := ih.block ⟨s.scopes.size⟩ (hs.guarded_closure id) _
      (hs.enter hargs (s.closure id))
    refine hbody.imp (fun r t hr ↦ ⟨hr.1, ofMade_isData.getD fun v hv ↦ ?_⟩) fun _ t ht ↦ ht
    obtain ⟨w, hw, rfl⟩ := Option.map_eq_some_iff.mp hv
    exact (hr.2 w hw).1
  next b =>
    refine (Clears.of_confined scope (Builtin.confined_call ofMade_isData b scope hargs)
      (Builtin.oblivious_call b scope args)).bind fun v hv ↦ ?_
    split
    next => exact .fail _
    next hne =>
      rcases hv with hv | hv
      · cases v <;> simp_all [Value.isError]
      · exact .pure hv
  next => exact .fail _

theorem ClearsAt.expr_succ {e : Expr} (he : e.guarded = true) :
    Clears (Value.Allowed e.mayReturn) (Eval.expr known (depth + 1) scope e) := by
  have hdata : ∀ {m : Eval Value} {may : Bool}, Confined Value.IsData scope Value.IsData m →
      Oblivious m → Clears (Value.Allowed may) m := fun hc ho ↦
    (Clears.of_confined scope hc ho).imp fun _ ↦ Value.IsData.allowed
  have hbody : ∀ {body : Block} {may : Bool}, body.guarded = true →
      (body.mayReturn = true → may = true) → Clears (Value.Allowed may) (do
        return (← Eval.block known depth scope body.body).getD .null) := by
    intro body may hg hmay
    obtain ⟨p, ss⟩ := body
    refine (ih.block scope hg).bind fun r hr ↦ .pure ?_
    cases r with
    | none => exact Value.IsData.allowed rfl
    | some v => exact (hr v rfl).imp hmay
  rw [Eval.expr.eq_def]
  cases e with
  | name p text =>
    exact hdata (confined_identifier (fun _ _ ↦ rfl) text) (oblivious_identifier _ _ _)
  | int p n => exact .pure (Value.IsData.allowed rfl)
  | float p x => exact .pure (Value.IsData.allowed rfl)
  | str p text => exact .pure (Value.IsData.allowed rfl)
  | bool p b => exact .pure (Value.IsData.allowed rfl)
  | unary p operator operand =>
    rw [Expr.guarded] at he
    exact (ih.expr scope he).bind fun v _ ↦
      .ofExcept fun w hw ↦ Value.IsData.allowed (unary_made hw).1.2
  | binary p operator left right =>
    rw [Expr.guarded, Bool.and_eq_true] at he
    exact (ih.expr scope he.1).bind fun v _ ↦ (ih.expr scope he.2).bind fun w _ ↦
      hdata (confined_binary ofMade_isData operator v w) (oblivious_binary operator v w)
  | conditional p condition consequence alternative =>
    rw [Expr.guarded, Bool.and_eq_true, Bool.and_eq_true] at he
    refine (ih.expr scope he.1.1).bind fun c _ ↦ .ite (fun _ ↦ ?_) fun _ ↦ ?_
    · exact hbody he.1.2 fun h ↦ by simp [Expr.mayReturn, h]
    · cases alternative with
      | some other => exact hbody he.2 fun h ↦ by simp [Expr.mayReturn, Block.optionMayReturn, h]
      | none => exact .pure (Value.IsData.allowed rfl)
  | function p parameters body =>
    rw [Expr.guarded] at he
    exact (Clears.newClosure he).imp fun _ ↦ Value.IsData.allowed
  | call p callee arguments =>
    rw [Expr.guarded, Bool.and_eq_true] at he
    exact (ih.expr scope he.1).bind fun f _ ↦ (ih.exprs scope he.2).bind fun vs hvs ↦
      (ih.apply scope f hvs).imp fun _ ↦ Value.IsData.allowed
  | array p elements =>
    rw [Expr.guarded] at he
    exact (ih.exprs scope he).bind fun vs hvs ↦
      hdata (.newArray ofMade_isData (by simpa using hvs)) (.newArray _)
  | hash p pairs =>
    rw [Expr.guarded] at he
    exact (ih.entries scope he (by simp)).bind fun t ht ↦
      (Clears.newHash ht).imp fun _ ↦ Value.IsData.allowed
  | index p target subscript =>
    rw [Expr.guarded, Bool.and_eq_true] at he
    exact (ih.expr scope he.1).bind fun v _ ↦ (ih.expr scope he.2).bind fun i _ ↦
      hdata (confined_index ofMade_isData v i) (oblivious_index v i)
  | slice p target start stop =>
    rw [Expr.guarded, Bool.and_eq_true, Bool.and_eq_true] at he
    exact (ih.expr scope he.1.1).bind fun v _ ↦ (ih.optional scope he.1.2).bind fun i _ ↦
      (ih.optional scope he.2).bind fun j _ ↦
        hdata (confined_slice ofMade_isData v i j) (oblivious_slice v i j)
  | whileLoop p condition body =>
    obtain ⟨q, ss⟩ := body
    rw [Expr.guarded, Bool.and_eq_true] at he
    exact ih.whileLoop scope he.1 he.2
  | forLoop p start condition advance body =>
    obtain ⟨q, ss⟩ := body
    simp only [Expr.guarded, Bool.and_eq_true] at he
    obtain ⟨⟨⟨hstart, hcond⟩, hadv⟩, hbody⟩ := he
    refine (ih.stmt scope hstart).bind fun r hr ↦ ?_
    split
    next v => exact .pure ((hr _ rfl).imp fun h ↦ by simp [Expr.mayReturn, h])
    next =>
      refine (ih.forLoop scope hcond hadv hbody).imp fun v hv ↦ hv.imp fun h ↦ ?_
      simpa [Expr.mayReturn, Block.mayReturn, Bool.or_assoc] using Or.inr h
  | step p direction place operand =>
    exact hdata (confined_step ofMade_isData direction place operand)
      (oblivious_step scope direction place operand)
  | range p sort start stop =>
    rw [Expr.guarded, Bool.and_eq_true] at he
    exact (ih.expr scope he.1).bind fun a _ ↦ (ih.expr scope he.2).bind fun b _ ↦
      hdata (confined_range ofMade_isData sort a b) (oblivious_range sort a b)

theorem ClearsAt.optional_succ {e : Option Expr} (he : Expr.guardedOption e = true) :
    Clears (fun _ ↦ True) (Eval.optional known (depth + 1) scope e) := by
  cases e with
  | none => exact .pure trivial
  | some e => exact (ih.expr scope he).bind fun _ _ ↦ .pure trivial

theorem ClearsAt.exprs_succ {es : List Expr} (he : Expr.guardedData es = true) :
    Clears (fun vs ↦ ∀ v ∈ vs, v.IsData) (Eval.exprs known (depth + 1) scope es) := by
  cases es with
  | nil => exact .pure (by simp)
  | cons e es =>
    simp only [Expr.guardedData, Bool.and_eq_true, Bool.not_eq_true'] at he
    obtain ⟨⟨he, hmay⟩, hes⟩ := he
    refine (ih.expr scope he).bind fun v hv ↦ (ih.exprs scope hes).bind fun vs hvs ↦ ?_
    rw [hmay] at hv
    exact .pure (List.forall_mem_cons.mpr ⟨hv.isData, hvs⟩)

/-- What was found to have a key is data. -/
theorem ClearsAt.entries_succ {pairs : List (Expr × Expr)} {t : Table}
    (hp : Expr.guardedPairs pairs = true) (ht : ∀ e ∈ t, e.key.IsData ∧ e.value.IsData) :
    Clears (fun t : Table ↦ ∀ e ∈ t, e.key.IsData ∧ e.value.IsData)
      (Eval.entries known (depth + 1) scope pairs t) := by
  cases pairs with
  | nil => exact .pure ht
  | cons pair pairs =>
    obtain ⟨k, e⟩ := pair
    simp only [Expr.guardedPairs, Bool.and_eq_true, Bool.not_eq_true'] at hp
    obtain ⟨⟨⟨hk, he⟩, hmay⟩, hpairs⟩ := hp
    refine (ih.expr scope hk).bind fun key _ ↦ .bind (.ofExcept fun k hk ↦ hk) fun slot hslot ↦ ?_
    refine (ih.expr scope he).bind fun value hvalue ↦ ih.entries scope hpairs fun e he ↦ ?_
    rw [hmay] at hvalue
    rcases Table.mem_insert he with rfl | he
    · exact ⟨Value.isData_of_ofValue? (ofValue?_of_keyOf hslot), hvalue.isData⟩
    · exact ht e he

theorem ClearsAt.block_succ {ss : List Stmt} (hs : Stmt.allGuarded ss = true) :
    Clears (fun r ↦ ∀ v ∈ r, v.Allowed (Stmt.anyMayReturn ss))
      (Eval.block known (depth + 1) scope ss) := by
  have hhead : ∀ {statement : Stmt} {ss : List Stmt},
      statement.mayReturn = true → Stmt.anyMayReturn (statement :: ss) = true := by
    intro statement ss h
    simp [Stmt.anyMayReturn, h]
  rcases ss with _ | ⟨statement, _ | ⟨next, ss⟩⟩
  · exact .pure (by simp)
  · rw [Stmt.allGuarded, Bool.and_eq_true] at hs
    exact (ih.stmt scope hs.1).imp fun r hr v hv ↦ (hr v hv).imp hhead
  · rw [Stmt.allGuarded, Bool.and_eq_true] at hs
    refine (ih.stmt scope hs.1).bind fun r hr ↦ .ite (fun _ ↦ ?_) fun _ ↦ ?_
    · exact .pure fun v hv ↦ (hr v hv).imp hhead
    · refine (ih.block scope hs.2).imp fun r hr v hv ↦ (hr v hv).imp fun h ↦ ?_
      simp [Stmt.anyMayReturn.eq_2 statement, h]

theorem ClearsAt.stmt_succ {statement : Stmt} (hs : statement.guarded = true) :
    Clears (fun r ↦ ∀ v ∈ r, v.Allowed statement.mayReturn)
      (Eval.stmt known (depth + 1) scope statement) := by
  rw [Eval.stmt.eq_def]
  cases statement with
  | bind p name e =>
    rw [Stmt.guarded] at hs
    refine (ih.expr scope hs).bind fun v hv ↦ .ite (fun _ ↦ ?_) fun hp ↦ ?_
    · exact .pure (by simpa [Stmt.mayReturn] using hv)
    have hdata : v.IsData := Bool.eq_false_iff.mpr hp
    refine .bind (R := fun _ ↦ True) (fun s hs ↦ ?_) fun _ _ ↦ .pure (by simp)
    exact ensures_modify.mpr ⟨⟨hs.data.bind hdata, hs.closures⟩, trivial⟩
  | store p name subscript e =>
    rw [Stmt.guarded, Bool.and_eq_true] at hs
    refine (ih.expr scope hs.2).bind fun v hv ↦ .ite (fun _ ↦ ?_) fun hp ↦ ?_
    · exact .pure (by simpa [Stmt.mayReturn] using hv)
    have hdata : v.IsData := Bool.eq_false_iff.mpr hp
    refine (Clears.of_confined scope (confined_binding name.text)
      (oblivious_binding scope name.text)).bind fun target _ ↦ ?_
    refine (ih.expr scope hs.1).bind fun i _ ↦ ?_
    have hkey : ∀ k, Key.ofValue? i = some k → i.IsData := fun _ ↦ Value.isData_of_ofValue?
    exact (Clears.of_confined scope (confined_store target hkey hdata)
      (oblivious_store target i v)).bind fun _ _ ↦ .pure (by simp)
  | ret p e =>
    rw [Stmt.guarded] at hs
    exact (ih.expr scope hs).bind fun v hv ↦ .pure (by simpa [Stmt.mayReturn] using hv.toPending)
  | expr p e =>
    rw [Stmt.guarded] at hs
    exact (ih.expr scope hs).bind fun v hv ↦ .pure (by simpa [Stmt.mayReturn] using hv)
  | comment p text => exact .pure (by simp)

theorem ClearsAt.whileLoop_succ {condition : Expr} {body : List Stmt}
    (hc : condition.guarded = true) (hb : Stmt.allGuarded body = true) :
    Clears (Value.Allowed (Stmt.anyMayReturn body))
      (Eval.whileLoop known (depth + 1) scope condition body) := by
  refine (ih.expr scope hc).bind fun c _ ↦
    .ite (fun _ ↦ ?_) fun _ ↦ .pure (Value.IsData.allowed rfl)
  refine (ih.block scope hb).bind fun r hr ↦ ?_
  split
  next v => exact .pure (hr _ rfl)
  next => exact ih.whileLoop scope hc hb

theorem ClearsAt.forLoop_succ {condition : Expr} {advance : Stmt} {body : List Stmt}
    (hc : condition.guarded = true) (ha : advance.guarded = true)
    (hb : Stmt.allGuarded body = true) :
    Clears (Value.Allowed (advance.mayReturn || Stmt.anyMayReturn body))
      (Eval.forLoop known (depth + 1) scope condition advance body) := by
  refine (ih.expr scope hc).bind fun c _ ↦
    .ite (fun _ ↦ ?_) fun _ ↦ .pure (Value.IsData.allowed rfl)
  refine (ih.block scope hb).bind fun r hr ↦ ?_
  split
  next v => exact .pure ((hr _ rfl).imp fun h ↦ by simp [h])
  next =>
    refine (ih.stmt scope ha).bind fun a ha' ↦ ?_
    split
    next v => exact .pure ((ha' _ rfl).imp fun h ↦ by simp [h])
    next => exact ih.forLoop scope hc ha hb

end Step

/-- Guarded code stores no pending return, at any depth. -/
theorem clearsAt (known : List Builtin) (depth : Nat) : ClearsAt known depth := by
  induction depth with
  | zero =>
    exact ⟨fun _ _ _ ↦ .throw _, fun _ _ _ ↦ .throw _, fun _ _ _ ↦ .throw _,
      fun _ _ _ _ _ ↦ .throw _, fun _ _ _ ↦ .throw _, fun _ _ _ ↦ .throw _,
      fun _ _ _ _ _ ↦ .throw _, fun _ _ _ _ _ _ _ ↦ .throw _, fun _ _ _ _ ↦ .throw _⟩
  | succ depth ih =>
    exact ⟨ih.expr_succ, ih.optional_succ, ih.exprs_succ, ih.entries_succ, ih.block_succ,
      ih.stmt_succ, ih.whileLoop_succ, ih.forLoop_succ, ih.apply_succ⟩

theorem clears_program (known : List Builtin) (depth : Nat) (scope : ScopeId) {program : Program}
    (h : ∀ statement ∈ program, statement.guarded = true) :
    Clears (fun r ↦ ∀ v ∈ r, v.IsData) (Eval.program known depth scope program) := by
  refine ((clearsAt known depth).block scope (Stmt.allGuarded_iff.mpr h)).bind fun r hr ↦
    .pure fun v hv ↦ ?_
  obtain ⟨w, hw, rfl⟩ := Option.map_eq_some_iff.mp hv
  exact (hr w hw).1

end Eval

theorem Clears.after {α : Type} {Q : α → Prop} {m : Eval α} (h : Clears Q m) {s : Store}
    (hs : s.Clear) : (after m s).Clear :=
  Ensures.of_after ((h s hs).imp (fun _ _ hq ↦ hq.1) fun _ _ he ↦ he)

/-- No store on the way of guarded code holds a pending return. -/
theorem Visits.clear {known : List Builtin} {s t : Store}
    (h : Visits known (fun e ↦ e.guarded = true) (fun statement ↦ statement.guarded = true) s t)
    (hs : s.Clear) : t.Clear := by
  induction h with
  | start => exact hs
  | expr depth scope he _ ih => exact ((Eval.clearsAt known depth).expr scope he).after ih
  | stmt depth scope hst _ ih => exact ((Eval.clearsAt known depth).stmt scope hst).after ih
  | program depth scope hp _ ih => exact (Eval.clears_program known depth scope hp).after ih
  | enter depth scope id he _ hu ih =>
    rw [Expr.guarded, Bool.and_eq_true] at he
    obtain ⟨hu, hvalues⟩ := ((Eval.clearsAt known depth).exprs scope he.2 _ ih).of_ok hu
    exact hu.enter hvalues _

end Treewalk
