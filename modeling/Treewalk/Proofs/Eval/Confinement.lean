import Treewalk.Program
import Treewalk.Proofs.Outcome
import Treewalk.Proofs.Store.Evolution

/-!
# Evaluation is confined to its scope

Whatever is evaluated in a scope, and however it ends, the store it leaves comes from the store it
started with by steps in that scope. At the same time a property of values that evaluation cannot
lose is kept: if all values in the store have it, so has every result. A call is confined to every
scope, since it binds names in a new one only.
-/

set_option autoImplicit false
set_option relaxedAutoImplicit false

namespace Treewalk

/-- Neither an error nor a pending return. -/
def Value.IsPlain (v : Value) : Prop :=
  v.isError = false ∧ v.isPending = false

/-- Whether a value is a builtin. -/
def Value.isBuiltin : Value → Bool
  | .builtin _ => true
  | _ => false

/-- Plain and no builtin, as all values are that evaluation makes. A builtin comes from a name. -/
def Value.IsMade (v : Value) : Prop :=
  v.IsPlain ∧ v.isBuiltin = false

/-- A property that holds of every value but perhaps of errors, pending returns and builtins. -/
structure OfMade (P : Value → Prop) : Prop where
  made : ∀ v : Value, v.IsMade → P v

/-- A property of values that evaluation cannot lose. It holds of every value but perhaps of errors
and of pending returns, and a pending return has it just as what it carries. -/
structure Lasting (P : Value → Prop) : Prop where
  plain : ∀ v : Value, v.IsPlain → P v
  toPending : ∀ v : Value, P v → P v.toPending
  result : ∀ v : Value, P v → P v.result

/-- A property of values that evaluation with the known builtins cannot lose. Other builtins need
not have it. -/
structure Kept (known : List Builtin) (P : Value → Prop) : Prop where
  made : ∀ v : Value, v.IsMade → P v
  builtin : ∀ b ∈ known, P (.builtin b)
  toPending : ∀ v : Value, P v → P v.toPending
  result : ∀ v : Value, P v → P v.result

/-- Started with values that have a property, a computation leaves a store that comes from the first
one by steps in a scope, and its result has the property `Q`. -/
def Confined {α : Type} (P : Value → Prop) (scope : ScopeId) (Q : α → Prop) (m : Eval α) : Prop :=
  ∀ s : Store, s.Holds P →
    Ensures m s (fun a t ↦ Evolves P scope s t ∧ Q a) fun _ t ↦ Evolves P scope s t

variable {P : Value → Prop} {scope : ScopeId} {α β : Type}

theorem OfMade.null (hP : OfMade P) : P .null :=
  hP.made _ ⟨⟨rfl, rfl⟩, rfl⟩

theorem OfMade.getD (hP : OfMade P) {o : Option Value} (h : ∀ v ∈ o, P v) : P (o.getD .null) := by
  cases o with
  | none => exact hP.null
  | some v => exact h v rfl

theorem Kept.ofMade {known : List Builtin} (hP : Kept known P) : OfMade P :=
  ⟨hP.made⟩

theorem Lasting.kept (hP : Lasting P) (known : List Builtin) : Kept known P :=
  ⟨fun v hv ↦ hP.plain v hv.1, fun _ _ ↦ hP.plain _ ⟨rfl, rfl⟩, hP.toPending, hP.result⟩

/-! ### Parts of computations -/

namespace Confined

variable {Q R : α → Prop} {m : Eval α}

theorem imp (h : Confined P scope Q m) (hQ : ∀ a, Q a → R a) : Confined P scope R m :=
  fun s hs ↦ (h s hs).imp (fun a _ hq ↦ ⟨hq.1, hQ a hq.2⟩) fun _ _ he ↦ he

protected theorem pure {a : α} (h : Q a) : Confined P scope Q (pure a) :=
  fun s _ ↦ ensures_pure.mpr ⟨.refl s, h⟩

protected theorem throw (e : Stop) : Confined P scope Q (throw e) :=
  fun s _ ↦ ensures_throw.mpr (.refl s)

theorem fail (e : RuntimeError) : Confined P scope Q (Eval.fail e) :=
  .throw _

protected theorem get : Confined P scope (Store.Holds P) get :=
  fun s hs ↦ ensures_get.mpr ⟨.refl s, hs⟩

protected theorem bind {Q : β → Prop} {f : α → Eval β} (hm : Confined P scope R m)
    (hf : ∀ a, R a → Confined P scope Q (f a)) : Confined P scope Q (m >>= f) := by
  intro s hs
  rw [ensures_bind]
  refine (hm s hs).imp (fun a t hq ↦ ?_) fun _ _ he ↦ he
  obtain ⟨hst, ha⟩ := hq
  refine (hf a ha t (hst.holds hs)).imp (fun b u hq ↦ ?_) fun e u he ↦ ?_
  · exact ⟨hst.trans hq.1, hq.2⟩
  · exact hst.trans he

theorem modifyGet {f : Store → α × Store} (h : ∀ s, Evolves P scope s (f s).2)
    (hQ : ∀ s, Q (f s).1) : Confined P scope Q (modifyGet f) :=
  fun s _ ↦ ensures_modifyGet.mpr ⟨h s, hQ s⟩

theorem modify {f : Store → Store} (h : ∀ s, Evolves P scope s (f s)) :
    Confined P scope (fun _ ↦ True) (modify f) :=
  fun s _ ↦ ensures_modify.mpr ⟨h s, trivial⟩

protected theorem ite {p : Prop} [Decidable p] {n : Eval α} (hm : p → Confined P scope Q m)
    (hn : ¬ p → Confined P scope Q n) : Confined P scope Q (if p then m else n) := by
  split
  next hp => exact hm hp
  next hp => exact hn hp

theorem ofExcept {x : Except RuntimeError α} (h : ∀ a, x = .ok a → Q a) :
    Confined P scope Q (Eval.ofExcept x) := by
  cases x with
  | ok a => exact .pure (h a rfl)
  | error e => exact .fail e

theorem ofOption (x : Option α) : Confined P scope (fun _ ↦ True) (Eval.ofOption x) := by
  cases x with
  | some a => exact .pure trivial
  | none => exact .throw _

theorem newArray (hP : OfMade P) {xs : Array Value} (h : ∀ v ∈ xs, P v) :
    Confined P scope P (Eval.newArray xs) :=
  .modifyGet (fun s ↦ .allocate s h trivial) fun _ ↦ hP.made _ ⟨⟨rfl, rfl⟩, rfl⟩

theorem newHash (hP : OfMade P) {t : Table} (h : ∀ e ∈ t, P e.key ∧ P e.value)
    (ht : t.WellFormed) : Confined P scope P (Eval.newHash t) :=
  .modifyGet (fun s ↦ .allocate s h ht) fun _ ↦ hP.made _ ⟨⟨rfl, rfl⟩, rfl⟩

end Confined

theorem mem_of_mem_extract {x : α} {xs : Array α} {i j : Nat} (h : x ∈ xs.extract i j) :
    x ∈ xs := by
  obtain ⟨k, hk, rfl⟩ := Array.mem_extract_iff_getElem.mp h
  exact Array.getElem_mem _

/-! ### Operations -/

namespace Eval

theorem ofValue?_of_keyOf {v : Value} {k : Key} (h : keyOf v = .ok k) :
    Key.ofValue? v = some k := by
  unfold keyOf at h
  split at h
  next j hj =>
    obtain rfl := Except.ok.inj h
    exact hj
  next => cases h

theorem confined_index (hP : OfMade P) (target subscript : Value) :
    Confined P scope P (index target subscript) := by
  unfold index
  refine .bind .get fun s hs ↦ ?_
  split
  next id i =>
    refine .pure (hP.getD fun v hv ↦ ?_)
    obtain ⟨slot, -, hv⟩ := Option.bind_eq_some_iff.mp hv
    exact hs.elements id v (Array.mem_of_getElem? hv)
  next text i =>
    refine .pure ?_
    generalize (Word.slot? i text.toList.length).bind _ = found
    cases found with
    | none => exact hP.null
    | some c => exact hP.made _ ⟨⟨rfl, rfl⟩, rfl⟩
  next => exact .fail _
  next => exact .fail _
  next id =>
    refine .bind (.ofExcept fun _ _ ↦ trivial) fun k _ ↦ .pure ?_
    cases hk : (s.entries id).get? k with
    | none => exact hP.null
    | some e => exact (hs.entries id e (List.mem_of_find?_eq_some hk)).2
  next => exact .fail _

theorem confined_slice (hP : OfMade P) (target : Value) (start stop : Option Value) :
    Confined P scope P (slice target start stop) := by
  unfold slice
  split
  next id =>
    refine .bind .get fun s hs ↦ .bind (.ofExcept fun _ _ ↦ trivial) fun bounds _ ↦ ?_
    exact .newArray hP fun v hv ↦ hs.elements id v (mem_of_mem_extract hv)
  next text =>
    exact .bind (.ofExcept fun _ _ ↦ trivial) fun bounds _ ↦ .pure (hP.made _ ⟨⟨rfl, rfl⟩, rfl⟩)
  next => exact .fail _

theorem confined_range (hP : OfMade P) (sort : RangeBound) (start stop : Value) :
    Confined P scope P (range sort start stop) := by
  unfold range
  split
  next a b =>
    refine .bind (.ofExcept fun _ _ ↦ trivial) fun words _ ↦ .newArray hP fun v hv ↦ ?_
    obtain ⟨w, -, rfl⟩ := Array.mem_map.mp hv
    exact hP.made _ ⟨⟨rfl, rfl⟩, rfl⟩
  next => exact .fail _

theorem confined_store {value : Value} (target : Value) {subscript : Value}
    (hs : ∀ k, Key.ofValue? subscript = some k → P subscript) (hv : P value) :
    Confined P scope (fun _ ↦ True) (store target subscript value) := by
  unfold store
  split
  next id i =>
    refine .bind .get fun s _ ↦ ?_
    dsimp only
    split
    next slot _ => exact .modify fun s ↦ .setElement s id slot hv
    next => exact .fail _
  next => exact .fail _
  next id =>
    refine .bind (.ofExcept fun k hk ↦ hk) fun k hk ↦ .modify fun s ↦ ?_
    have hslot := ofValue?_of_keyOf hk
    exact .insert s id hslot (hs k hslot) hv
  next => exact .fail _

theorem integerBinary_made {operator : BinaryOperator} {a b : Int64} {v : Value}
    (h : integerBinary operator a b = .ok v) : v.IsMade := by
  unfold integerBinary integerPower shiftAmount at h
  cases operator <;> dsimp only at h <;> repeat' split at h
  all_goals cases h <;> exact ⟨⟨rfl, rfl⟩, rfl⟩

theorem floatBinary?_made {operator : BinaryOperator} {a b : Float} {v : Value}
    (h : floatBinary? operator a b = some v) : v.IsMade := by
  unfold floatBinary? at h
  cases operator <;> cases h <;> exact ⟨⟨rfl, rfl⟩, rfl⟩

theorem stringBinary?_made {operator : BinaryOperator} {a b : String} {v : Value}
    (h : stringBinary? operator a b = some v) : v.IsMade := by
  unfold stringBinary? at h
  cases operator <;> cases h <;> exact ⟨⟨rfl, rfl⟩, rfl⟩

theorem identityBinary_made {operator : BinaryOperator} {left right v : Value}
    (h : identityBinary operator left right = .ok v) : v.IsMade := by
  unfold identityBinary at h
  cases operator <;> cases h <;> exact ⟨⟨rfl, rfl⟩, rfl⟩

theorem unary_made {operator : UnaryOperator} {operand v : Value}
    (h : unary operator operand = .ok v) : v.IsMade := by
  unfold unary at h
  repeat' split at h
  all_goals cases h <;> exact ⟨⟨rfl, rfl⟩, rfl⟩

theorem stepped_made {direction : StepDirection} {name : String} {old v : Value}
    (h : stepped direction name old = .ok v) : v.IsMade := by
  unfold stepped at h
  repeat' split at h
  all_goals cases h <;> exact ⟨⟨rfl, rfl⟩, rfl⟩

theorem confined_binary (hP : OfMade P) (operator : BinaryOperator) (left right : Value) :
    Confined P scope P (binary operator left right) := by
  unfold binary
  split
  next => exact .pure (hP.made _ ⟨⟨rfl, rfl⟩, rfl⟩)
  next => exact .pure (hP.made _ ⟨⟨rfl, rfl⟩, rfl⟩)
  next =>
    extract_lets orFail
    have hfail : ∀ o, (∀ v, o = some v → v.IsMade) → Confined P scope P (orFail o) := by
      intro o ho
      cases o with
      | some v => exact .pure (hP.made v (ho v rfl))
      | none => exact .fail _
    split
    next a b => exact .ofExcept fun v hv ↦ hP.made v (integerBinary_made hv)
    next a b => exact hfail _ fun v ↦ floatBinary?_made
    next a b => exact hfail _ fun v ↦ floatBinary?_made
    next a b => exact hfail _ fun v ↦ floatBinary?_made
    next a b => exact hfail _ fun v ↦ stringBinary?_made
    next a b =>
      refine .ite (fun _ ↦ .bind .get fun s hs ↦ .newArray hP fun v hv ↦ ?_) fun _ ↦ ?_
      · rcases Array.mem_append.mp hv with hv | hv
        · exact hs.elements a v hv
        · exact hs.elements b v hv
      · exact .ofExcept fun v hv ↦ hP.made v (identityBinary_made hv)
    next => exact .ofExcept fun v hv ↦ hP.made v (identityBinary_made hv)

theorem confined_binding (name : String) : Confined P scope P (binding scope name) := by
  unfold binding
  refine .bind .get fun s hs ↦ ?_
  split
  next v hv => exact .pure (hs.lookupWithin hv)
  next => exact .fail _

theorem confined_identifier {known : List Builtin} (hknown : ∀ b ∈ known, P (.builtin b))
    (name : String) : Confined P scope P (identifier known scope name) := by
  unfold identifier
  refine .bind .get fun s hs ↦ ?_
  split
  next v hv => exact .pure (hs.lookupWithin hv)
  next =>
    split
    next b hb => exact .pure (hknown b (List.mem_of_find?_eq_some hb))
    next => exact .fail _

theorem confined_step (hP : OfMade P) (direction : StepDirection) (place : StepPlace)
    (operand : Expr) : Confined P scope P (step scope direction place operand) := by
  unfold step
  split
  next name =>
    refine .bind (confined_binding name) fun old hold ↦ ?_
    refine .bind (.ofExcept fun v hv ↦ hP.made v (stepped_made hv)) fun new hnew ↦ ?_
    refine .bind (.modify fun s ↦ .bind s name hnew) fun _ _ ↦ ?_
    cases place with
    | before => exact .pure hnew
    | after => exact .pure hold
  next => exact .fail _

theorem confined_newClosure (hP : OfMade P) (parameters : List Name) (body : Block) :
    Confined P scope P (newClosure ⟨parameters, body, scope⟩) :=
  .modifyGet (fun s ↦ .close s parameters body) fun _ ↦ hP.made _ ⟨⟨rfl, rfl⟩, rfl⟩

end Eval

/-! ### Builtins -/

namespace Builtin

/-- What a builtin may answer with: a value with the property, or an error. -/
def Answers (P : Value → Prop) (v : Value) : Prop :=
  v.isError = true ∨ P v

/-- Answers that are made without a change of the store. -/
theorem confined_misuse (m : Misuse) : Confined P scope (Answers P) (pure m.value) :=
  .pure (.inl rfl)

theorem confined_answer (hP : OfMade P) {v : Value} (h : v.IsMade) :
    Confined P scope (Answers P) (pure v) :=
  .pure (.inr (hP.made v h))

theorem confined_newArray (hP : OfMade P) {xs : Array Value} (h : ∀ v ∈ xs, P v) :
    Confined P scope (Answers P) (Eval.newArray xs) :=
  (Confined.newArray hP h).imp fun _ ↦ .inr

theorem confined_texts (args : List Value) : Confined P scope (fun _ ↦ True) (texts args) := by
  unfold texts
  refine .bind .get fun s _ ↦ ?_
  induction args with
  | nil => exact .pure trivial
  | cons v vs ih =>
    rw [List.mapM_cons]
    exact .bind (.ofOption _) fun _ _ ↦ .bind ih fun _ _ ↦ .pure trivial

/-- A builtin may write in any scope. -/
theorem confined_write (hP : OfMade P) (id : ScopeId) (text : String) :
    Confined P scope (Answers P) (write id text) :=
  .bind (.modify fun s ↦ .write s id text) fun _ _ ↦ confined_answer hP ⟨⟨rfl, rfl⟩, rfl⟩

theorem confined_len (hP : OfMade P) (v : Value) : Confined P scope (Answers P) (len v) := by
  unfold len
  refine .bind .get fun s _ ↦ ?_
  split
  · exact confined_answer hP ⟨⟨rfl, rfl⟩, rfl⟩
  · exact confined_answer hP ⟨⟨rfl, rfl⟩, rfl⟩
  · exact confined_answer hP ⟨⟨rfl, rfl⟩, rfl⟩
  · exact confined_misuse _

theorem confined_first (hP : OfMade P) (v : Value) : Confined P scope (Answers P) (first v) := by
  unfold first
  split
  next id =>
    refine .bind .get fun s hs ↦ .pure (.inr (hP.getD fun w hw ↦ ?_))
    exact hs.elements id w (Array.mem_of_getElem? hw)
  next => exact confined_misuse _

theorem confined_last (hP : OfMade P) (v : Value) : Confined P scope (Answers P) (last v) := by
  unfold last
  split
  next id =>
    refine .bind .get fun s hs ↦ .pure (.inr (hP.getD fun w hw ↦ ?_))
    exact hs.elements id w (Array.mem_of_back? hw)
  next => exact confined_misuse _

theorem confined_rest (hP : OfMade P) (v : Value) : Confined P scope (Answers P) (rest v) := by
  unfold rest
  split
  next id =>
    refine .bind .get fun s hs ↦ .ite (fun _ ↦ confined_answer hP ⟨⟨rfl, rfl⟩, rfl⟩) fun _ ↦ ?_
    exact confined_newArray hP fun w hw ↦ hs.elements id w (mem_of_mem_extract hw)
  next => exact confined_misuse _

theorem confined_push (hP : OfMade P) (v : Value) {element : Value} (he : P element) :
    Confined P scope (Answers P) (push v element) := by
  unfold push
  split
  next id =>
    exact .bind .get fun s hs ↦ confined_newArray hP (forall_mem_push (hs.elements id) he)
  next => exact confined_misuse _

theorem confined_keys (hP : OfMade P) (v : Value) : Confined P scope (Answers P) (keys v) := by
  unfold keys
  split
  next id =>
    refine .bind .get fun s hs ↦ confined_newArray hP fun w hw ↦ ?_
    obtain ⟨e, he, rfl⟩ := List.mem_map.mp (List.mem_toArray.mp hw)
    exact (hs.entries id e he).1
  next => exact confined_misuse _

theorem confined_values (hP : OfMade P) (v : Value) : Confined P scope (Answers P) (values v) := by
  unfold values
  split
  next id =>
    refine .bind .get fun s hs ↦ confined_newArray hP fun w hw ↦ ?_
    obtain ⟨e, he, rfl⟩ := List.mem_map.mp (List.mem_toArray.mp hw)
    exact (hs.entries id e he).2
  next => exact confined_misuse _

theorem confined_delete (hP : OfMade P) (v key : Value) :
    Confined P scope (Answers P) (delete v key) := by
  unfold delete
  split
  next id =>
    split
    next k _ =>
      exact .bind (.modify fun s ↦ .erase s id k) fun _ _ ↦ confined_answer hP ⟨⟨rfl, rfl⟩, rfl⟩
    next => exact confined_misuse _
  next => exact confined_misuse _

theorem confined_contains (hP : OfMade P) (v part : Value) :
    Confined P scope (Answers P) (contains v part) := by
  unfold contains
  refine .bind .get fun s _ ↦ ?_
  split
  · exact confined_answer hP ⟨⟨rfl, rfl⟩, rfl⟩
  · exact confined_misuse _
  · exact .bind (.ofOption _) fun _ _ ↦ confined_answer hP ⟨⟨rfl, rfl⟩, rfl⟩
  · split
    · exact confined_answer hP ⟨⟨rfl, rfl⟩, rfl⟩
    · exact confined_misuse _
  · exact confined_misuse _

theorem confined_string (hP : OfMade P) (v : Value) :
    Confined P scope (Answers P) (string v) :=
  .bind .get fun _ _ ↦ .bind (.ofOption _) fun _ _ ↦ confined_answer hP ⟨⟨rfl, rfl⟩, rfl⟩

theorem answers_int (hP : OfMade P) (v : Value) : Answers P (int v) := by
  unfold int
  repeat' split
  all_goals first
    | exact .inr (hP.made _ ⟨⟨rfl, rfl⟩, rfl⟩)
    | exact .inl rfl

theorem answers_float (hP : OfMade P) (v : Value) : Answers P (float v) := by
  unfold float
  repeat' split
  all_goals first
    | exact .inr (hP.made _ ⟨⟨rfl, rfl⟩, rfl⟩)
    | exact .inl rfl

theorem confined_join (hP : OfMade P) (v : Value) (separator : Option Value) :
    Confined P scope (Answers P) (join v separator) := by
  unfold join
  split
  · split
    · exact .bind .get fun _ _ ↦ .bind (confined_texts _) fun _ _ ↦
        confined_answer hP ⟨⟨rfl, rfl⟩, rfl⟩
    · exact confined_misuse _
  · exact confined_misuse _

theorem confined_split (hP : OfMade P) (v : Value) (separator : Option Value) :
    Confined P scope (Answers P) (split v separator) := by
  unfold split
  split
  · split
    · refine confined_newArray hP fun w hw ↦ ?_
      obtain ⟨p, -, rfl⟩ := List.mem_map.mp (List.mem_toArray.mp hw)
      exact hP.made _ ⟨⟨rfl, rfl⟩, rfl⟩
    · exact confined_misuse _
  · exact confined_misuse _

/-- A builtin called in one scope is confined to every scope. -/
theorem confined_call (hP : OfMade P) (b : Builtin) (id : ScopeId) {args : List Value}
    (hargs : ∀ v ∈ args, P v) : Confined P scope (Answers P) (b.call id args) := by
  unfold call
  refine .ite (fun _ ↦ ?_) fun _ ↦ confined_misuse _
  split
  · exact confined_len hP _
  · exact confined_first hP _
  · exact confined_last hP _
  · exact confined_rest hP _
  · exact confined_push hP _ (hargs _ (by simp))
  · exact confined_keys hP _
  · exact confined_values hP _
  · exact confined_delete hP _ _
  · exact confined_contains hP _ _
  · exact .bind (confined_texts _) fun _ _ ↦ confined_write hP id _
  · exact .bind (confined_texts _) fun _ _ ↦ confined_write hP id _
  · exact confined_answer hP ⟨⟨rfl, rfl⟩, rfl⟩
  · exact confined_string hP _
  · exact .pure (answers_int hP _)
  · exact .pure (answers_float hP _)
  · exact confined_join hP _ _
  · exact confined_join hP _ _
  · exact confined_split hP _ _
  · exact confined_split hP _ _
  · exact confined_misuse _

end Builtin

/-! ### Evaluation -/

namespace Eval

/-- Everything that is evaluated up to a depth is confined to its scope, and calls to every
scope. -/
structure ConfinedAt (P : Value → Prop) (known : List Builtin) (depth : Nat) : Prop where
  expr (scope : ScopeId) (e : Expr) : Confined P scope P (expr known depth scope e)
  optional (scope : ScopeId) (e : Option Expr) :
    Confined P scope (fun r ↦ ∀ v ∈ r, P v) (optional known depth scope e)
  exprs (scope : ScopeId) (es : List Expr) :
    Confined P scope (fun vs ↦ ∀ v ∈ vs, P v) (exprs known depth scope es)
  entries (scope : ScopeId) (pairs : List (Expr × Expr)) {t : Table} :
    (∀ e ∈ t, P e.key ∧ P e.value) → t.WellFormed →
      Confined P scope (fun t ↦ (∀ e ∈ t, P e.key ∧ P e.value) ∧ t.WellFormed)
        (entries known depth scope pairs t)
  block (scope : ScopeId) (statements : List Stmt) :
    Confined P scope (fun r ↦ ∀ v ∈ r, P v) (block known depth scope statements)
  stmt (scope : ScopeId) (statement : Stmt) :
    Confined P scope (fun r ↦ ∀ v ∈ r, P v) (stmt known depth scope statement)
  whileLoop (scope : ScopeId) (condition : Expr) (body : List Stmt) :
    Confined P scope P (whileLoop known depth scope condition body)
  forLoop (scope : ScopeId) (condition : Expr) (advance : Stmt) (body : List Stmt) :
    Confined P scope P (forLoop known depth scope condition advance body)
  apply (scope caller : ScopeId) (callee : Value) {args : List Value} :
    (∀ v ∈ args, P v) → Confined P scope P (apply known depth caller callee args)

section Step

variable {known : List Builtin} {depth : Nat}

/-- A call runs the body in a scope that is new, whatever scope it is made in. -/
theorem ConfinedAt.apply_succ (hP : Kept known P) (ih : ConfinedAt P known depth)
    (scope caller : ScopeId) (callee : Value) {args : List Value} (hargs : ∀ v ∈ args, P v) :
    Confined P scope P (Eval.apply known (depth + 1) caller callee args) := by
  rw [Eval.apply.eq_def]
  dsimp only
  split
  next id =>
    intro s hs
    simp only [ensures_bind, ensures_get, ensures_modifyGet, ensures_modify, ensures_pure]
    have hbody := ih.block ⟨s.scopes.size⟩ (s.closure id).body.body _
      (hs.enter (f := s.closure id) hargs)
    refine hbody.imp (fun r t hr ↦ ⟨.call id hargs hr.1, hP.ofMade.getD fun v hv ↦ ?_⟩)
      fun _ t ht ↦ .call id hargs ht
    obtain ⟨w, hw, rfl⟩ := Option.map_eq_some_iff.mp hv
    exact hP.result w (hr.2 w hw)
  next b =>
    refine .bind (Builtin.confined_call hP.ofMade b caller hargs) fun v hv ↦ ?_
    split
    next => exact .fail _
    next hne =>
      rcases hv with hv | hv
      · cases v <;> simp_all [Value.isError]
      · exact .pure hv
  next => exact .fail _

theorem ConfinedAt.expr_succ (hP : Kept known P) (ih : ConfinedAt P known depth) (scope : ScopeId)
    (e : Expr) : Confined P scope P (Eval.expr known (depth + 1) scope e) := by
  have hbody : ∀ statements : List Stmt, Confined P scope P (do
      return (← Eval.block known depth scope statements).getD .null) := fun statements ↦
    (ih.block scope statements).bind fun r hr ↦ .pure (hP.ofMade.getD hr)
  rw [Eval.expr.eq_def]
  dsimp only
  split
  next text => exact confined_identifier hP.builtin text
  next => exact .pure (hP.made _ ⟨⟨rfl, rfl⟩, rfl⟩)
  next => exact .pure (hP.made _ ⟨⟨rfl, rfl⟩, rfl⟩)
  next => exact .pure (hP.made _ ⟨⟨rfl, rfl⟩, rfl⟩)
  next => exact .pure (hP.made _ ⟨⟨rfl, rfl⟩, rfl⟩)
  next operator operand =>
    exact (ih.expr scope operand).bind fun v _ ↦ .ofExcept fun w hw ↦ hP.made w (unary_made hw)
  next operator left right =>
    exact (ih.expr scope left).bind fun v _ ↦ (ih.expr scope right).bind fun w _ ↦
      confined_binary hP.ofMade operator v w
  next condition consequence alternative =>
    refine (ih.expr scope condition).bind fun c _ ↦ .ite (fun _ ↦ hbody _) fun _ ↦ ?_
    split
    next => exact hbody _
    next => exact .pure hP.ofMade.null
  next parameters body => exact confined_newClosure hP.ofMade parameters body
  next callee arguments =>
    exact (ih.expr scope callee).bind fun f _ ↦ (ih.exprs scope arguments).bind fun vs hvs ↦
      ih.apply scope scope f hvs
  next elements =>
    exact (ih.exprs scope elements).bind fun vs hvs ↦ .newArray hP.ofMade (by simpa using hvs)
  next pairs =>
    exact (ih.entries scope pairs (by simp) Table.wellFormed_nil).bind fun t ht ↦
      .newHash hP.ofMade ht.1 ht.2
  next target subscript =>
    exact (ih.expr scope target).bind fun v _ ↦ (ih.expr scope subscript).bind fun i _ ↦
      confined_index hP.ofMade v i
  next target start stop =>
    exact (ih.expr scope target).bind fun v _ ↦ (ih.optional scope start).bind fun i _ ↦
      (ih.optional scope stop).bind fun j _ ↦ confined_slice hP.ofMade v i j
  next condition body => exact ih.whileLoop scope condition body.body
  next start condition advance body =>
    refine (ih.stmt scope start).bind fun r hr ↦ ?_
    split
    next v => exact .pure (hr _ rfl)
    next => exact ih.forLoop scope condition advance body.body
  next direction place operand => exact confined_step hP.ofMade direction place operand
  next sort start stop =>
    exact (ih.expr scope start).bind fun a _ ↦ (ih.expr scope stop).bind fun b _ ↦
      confined_range hP.ofMade sort a b

theorem ConfinedAt.optional_succ (ih : ConfinedAt P known depth) (scope : ScopeId)
    (e : Option Expr) :
    Confined P scope (fun r ↦ ∀ v ∈ r, P v) (Eval.optional known (depth + 1) scope e) := by
  cases e with
  | none => exact .pure (by simp)
  | some e => exact (ih.expr scope e).bind fun v hv ↦ .pure (by simpa using hv)

theorem ConfinedAt.exprs_succ (ih : ConfinedAt P known depth) (scope : ScopeId) (es : List Expr) :
    Confined P scope (fun vs ↦ ∀ v ∈ vs, P v) (Eval.exprs known (depth + 1) scope es) := by
  cases es with
  | nil => exact .pure (by simp)
  | cons e es =>
    exact (ih.expr scope e).bind fun v hv ↦ (ih.exprs scope es).bind fun vs hvs ↦
      .pure (List.forall_mem_cons.mpr ⟨hv, hvs⟩)

/-- The key of a pair is checked before it is put into the table, so the table stays in order. -/
theorem ConfinedAt.entries_succ (ih : ConfinedAt P known depth) (scope : ScopeId)
    (pairs : List (Expr × Expr)) {t : Table} (ht : ∀ e ∈ t, P e.key ∧ P e.value)
    (hw : t.WellFormed) :
    Confined P scope (fun t ↦ (∀ e ∈ t, P e.key ∧ P e.value) ∧ t.WellFormed)
      (Eval.entries known (depth + 1) scope pairs t) := by
  cases pairs with
  | nil => exact .pure ⟨ht, hw⟩
  | cons pair pairs =>
    obtain ⟨k, e⟩ := pair
    refine (ih.expr scope k).bind fun key hkey ↦ .bind (.ofExcept fun k hk ↦ hk) fun slot hslot ↦ ?_
    refine (ih.expr scope e).bind fun value hvalue ↦ ih.entries scope pairs (fun e he ↦ ?_) ?_
    · rcases Table.mem_insert he with rfl | he
      · exact ⟨hkey, hvalue⟩
      · exact ht e he
    · exact hw.insert (ofValue?_of_keyOf hslot)

theorem ConfinedAt.block_succ (ih : ConfinedAt P known depth) (scope : ScopeId)
    (statements : List Stmt) :
    Confined P scope (fun r ↦ ∀ v ∈ r, P v) (Eval.block known (depth + 1) scope statements) := by
  rcases statements with _ | ⟨statement, _ | ⟨next, statements⟩⟩
  · exact .pure (by simp)
  · exact ih.stmt scope statement
  · refine (ih.stmt scope statement).bind fun r hr ↦ ?_
    exact .ite (fun _ ↦ .pure hr) fun _ ↦ ih.block scope (next :: statements)

theorem ConfinedAt.stmt_succ (hP : Kept known P) (ih : ConfinedAt P known depth) (scope : ScopeId)
    (statement : Stmt) :
    Confined P scope (fun r ↦ ∀ v ∈ r, P v) (Eval.stmt known (depth + 1) scope statement) := by
  rw [Eval.stmt.eq_def]
  dsimp only
  split
  next name e =>
    refine (ih.expr scope e).bind fun v hv ↦ .ite (fun _ ↦ .pure (by simpa using hv)) fun _ ↦ ?_
    exact .bind (.modify fun s ↦ .bind s name.text hv) fun _ _ ↦ .pure (by simp)
  next name subscript e =>
    refine (ih.expr scope e).bind fun v hv ↦ .ite (fun _ ↦ .pure (by simpa using hv)) fun _ ↦ ?_
    refine (confined_binding name.text).bind fun target _ ↦ ?_
    refine (ih.expr scope subscript).bind fun i hi ↦ ?_
    exact (confined_store target (fun _ _ ↦ hi) hv).bind fun _ _ ↦ .pure (by simp)
  next e => exact (ih.expr scope e).bind fun v hv ↦ .pure (by simpa using hP.toPending v hv)
  next e => exact (ih.expr scope e).bind fun v hv ↦ .pure (by simpa using hv)
  next => exact .pure (by simp)

theorem ConfinedAt.whileLoop_succ (hP : Kept known P) (ih : ConfinedAt P known depth)
    (scope : ScopeId) (condition : Expr) (body : List Stmt) :
    Confined P scope P (Eval.whileLoop known (depth + 1) scope condition body) := by
  refine (ih.expr scope condition).bind fun c _ ↦ .ite (fun _ ↦ ?_) fun _ ↦ .pure hP.ofMade.null
  refine (ih.block scope body).bind fun r hr ↦ ?_
  split
  next v => exact .pure (hr _ rfl)
  next => exact ih.whileLoop scope condition body

theorem ConfinedAt.forLoop_succ (hP : Kept known P) (ih : ConfinedAt P known depth)
    (scope : ScopeId) (condition : Expr) (advance : Stmt) (body : List Stmt) :
    Confined P scope P (Eval.forLoop known (depth + 1) scope condition advance body) := by
  refine (ih.expr scope condition).bind fun c _ ↦ .ite (fun _ ↦ ?_) fun _ ↦ .pure hP.ofMade.null
  refine (ih.block scope body).bind fun r hr ↦ ?_
  split
  next v => exact .pure (hr _ rfl)
  next =>
    refine (ih.stmt scope advance).bind fun a ha ↦ ?_
    split
    next v => exact .pure (ha _ rfl)
    next => exact ih.forLoop scope condition advance body

end Step

/-- Evaluation is confined at every depth. -/
theorem confinedAt_of_kept {known : List Builtin} (hP : Kept known P) (depth : Nat) :
    ConfinedAt P known depth := by
  induction depth with
  | zero =>
    exact ⟨fun _ _ ↦ .throw _, fun _ _ ↦ .throw _, fun _ _ ↦ .throw _, fun _ _ _ _ _ ↦ .throw _,
      fun _ _ ↦ .throw _, fun _ _ ↦ .throw _, fun _ _ _ ↦ .throw _, fun _ _ _ _ ↦ .throw _,
      fun _ _ _ _ _ ↦ .throw _⟩
  | succ depth ih =>
    exact ⟨ih.expr_succ hP, ih.optional_succ, ih.exprs_succ, ih.entries_succ, ih.block_succ,
      ih.stmt_succ hP, ih.whileLoop_succ hP, ih.forLoop_succ hP, ih.apply_succ hP⟩

theorem confined_program_of_kept {known : List Builtin} (hP : Kept known P) (depth : Nat)
    (scope : ScopeId) (program : Program) :
    Confined P scope (fun r ↦ ∀ v ∈ r, P v) (Eval.program known depth scope program) := by
  refine ((confinedAt_of_kept hP depth).block scope program).bind fun r hr ↦ .pure fun v hv ↦ ?_
  obtain ⟨w, hw, rfl⟩ := Option.map_eq_some_iff.mp hv
  exact hP.result w (hr w hw)

theorem confinedAt (hP : Lasting P) (known : List Builtin) (depth : Nat) :
    ConfinedAt P known depth :=
  confinedAt_of_kept (hP.kept known) depth

theorem confined_program (hP : Lasting P) (known : List Builtin) (depth : Nat) (scope : ScopeId)
    (program : Program) :
    Confined P scope (fun r ↦ ∀ v ∈ r, P v) (Eval.program known depth scope program) :=
  confined_program_of_kept (hP.kept known) depth scope program

end Eval

/-! ### The store that is left -/

theorem Store.holds_true (s : Store) : s.Holds fun _ ↦ True := by
  refine ⟨fun cell _ ↦ ?_, fun _ _ _ _ ↦ trivial⟩
  cases cell with
  | array elements => exact fun _ _ ↦ trivial
  | hash table => exact fun _ _ ↦ ⟨trivial, trivial⟩

theorem lasting_true : Lasting fun _ ↦ True :=
  ⟨fun _ _ ↦ trivial, fun _ _ ↦ trivial, fun _ _ ↦ trivial⟩

/-- However a computation in a scope ends, the store it leaves comes from the first one by steps in
that scope. -/
theorem Confined.evolves {Q : α → Prop} {m : Eval α} (h : Confined P scope Q m) {s : Store}
    (hs : s.Holds P) : Evolves P scope s (after m s) :=
  Ensures.of_after ((h s hs).imp (fun _ _ hq ↦ hq.1) fun _ _ he ↦ he)

end Treewalk
