import Treewalk.Eval.Interpreter
import Treewalk.Proofs.Outcome
import Treewalk.Proofs.Store.Evolution

/-!
# What operations see of closures

Operators, indexing, steps and builtins handle functions as they handle numbers. They neither make
nor change closures, and they look at one only to write its text. So an operation that is run with
other closures of the same texts does the same (`Oblivious`). Only literals make closures and only
calls look into them.
-/

set_option autoImplicit false
set_option relaxedAutoImplicit false

namespace Treewalk

namespace Store

/-- The store with other closures. -/
def withClosures (s : Store) (closures : Array Closure) : Store :=
  { s with closures }

/-- The closures have the same texts as those of the store. -/
def Shows (s : Store) (closures : Array Closure) : Prop :=
  ∀ id : ClosureId,
    closureText ((s.withClosures closures).closure id) = closureText (s.closure id)

theorem withClosures_self (s : Store) : s.withClosures s.closures = s :=
  rfl

theorem shows_self (s : Store) : s.Shows s.closures :=
  fun _ ↦ rfl

end Store

/-- A computation that uses of closures only their texts and leaves them as they are. -/
def Oblivious {α : Type} (m : Eval α) : Prop :=
  ∀ (s : Store) (closures : Array Closure), s.Shows closures →
    m (s.withClosures closures) = mapOutcome id id (·.withClosures closures) (m s)

/-! ### Parts of computations -/

namespace Oblivious

variable {α β : Type} {m : Eval α}

/-- The closures are left as they are: run with those it has already, the computation leaves
them. -/
theorem keeps_closures (hm : Oblivious m) (s : Store) :
    Ensures m s (fun _ t ↦ t.closures = s.closures) fun _ t ↦ t.closures = s.closures := by
  have h := hm s s.closures s.shows_self
  rw [s.withClosures_self] at h
  unfold Ensures
  cases hs : m s with
  | ok a t =>
    rw [hs] at h
    have ht : t = t.withClosures s.closures := (EStateM.Result.ok.inj h).2
    exact (congrArg Store.closures ht :)
  | error e t =>
    rw [hs] at h
    have ht : t = t.withClosures s.closures := (EStateM.Result.error.inj h).2
    exact (congrArg Store.closures ht :)

protected theorem pure (a : α) : Oblivious (pure a) :=
  fun _ _ _ ↦ rfl

protected theorem throw (e : Stop) : Oblivious (throw e : Eval α) :=
  fun _ _ _ ↦ rfl

theorem fail (e : RuntimeError) : Oblivious (Eval.fail e : Eval α) :=
  .throw _

protected theorem bind {f : α → Eval β} (hm : Oblivious m) (hf : ∀ a, Oblivious (f a)) :
    Oblivious (m >>= f) := by
  intro s closures hs
  rw [run_bind, run_bind, hm s closures hs]
  cases h : m s with
  | error e t => rfl
  | ok a t =>
    have hkept := (hm.keeps_closures s).of_ok h
    have ht : t.Shows closures := by
      intro id
      have hid : t.closure id = s.closure id := by rw [Store.closure, hkept, Store.closure]
      rw [hid]
      exact hs id
    exact hf a t closures ht

/-- A computation that depends on the store. -/
theorem get {f : Store → Eval β} (hf : ∀ s, Oblivious (f s))
    (h : ∀ (s : Store) (closures : Array Closure), s.Shows closures →
      f (s.withClosures closures) = f s) : Oblivious (get >>= f) := by
  intro s closures hs
  have heq : (MonadState.get >>= f : Eval β) (s.withClosures closures) =
      f (s.withClosures closures) (s.withClosures closures) := rfl
  rw [heq, h s closures hs]
  exact hf s s closures hs

theorem modify {f : Store → Store}
    (h : ∀ (s : Store) (closures : Array Closure),
      f (s.withClosures closures) = (f s).withClosures closures) : Oblivious (modify f) := by
  intro s closures _
  change EStateM.Result.ok () (f (s.withClosures closures)) = _
  rw [h]
  rfl

protected theorem ite {p : Prop} [Decidable p] {n : Eval α} (hm : Oblivious m)
    (hn : Oblivious n) : Oblivious (if p then m else n) := by
  split
  · exact hm
  · exact hn

theorem ofExcept (x : Except RuntimeError α) : Oblivious (Eval.ofExcept x) := by
  cases x with
  | ok a => exact .pure a
  | error e => exact .fail e

theorem ofOption (x : Option α) : Oblivious (Eval.ofOption x) := by
  cases x with
  | some a => exact .pure a
  | none => exact .throw _

theorem newArray (xs : Array Value) : Oblivious (Eval.newArray xs) :=
  fun _ _ _ ↦ rfl

theorem newHash (t : Table) : Oblivious (Eval.newHash t) :=
  fun _ _ _ ↦ rfl

end Oblivious

/-! ### What is read from a store -/

namespace Store

section Reading

variable {s : Store} {closures : Array Closure}

theorem lookupWithin_withClosures (count : Nat) (id : ScopeId) (name : String) :
    (s.withClosures closures).lookupWithin count id name = s.lookupWithin count id name := by
  induction count generalizing id with
  | zero => rfl
  | succ count ih =>
    unfold lookupWithin
    simp only [ih]
    rfl

theorem lookup?_withClosures (id : ScopeId) (name : String) :
    (s.withClosures closures).lookup? id name = s.lookup? id name :=
  lookupWithin_withClosures _ id name

theorem showWithin_withClosures (h : s.Shows closures) (depth : Nat) (v : Value) :
    (s.withClosures closures).showWithin depth v = s.showWithin depth v := by
  induction depth generalizing v with
  | zero => rfl
  | succ depth ih =>
    have hrec : (s.withClosures closures).showWithin depth = s.showWithin depth := funext ih
    unfold showWithin
    rw [hrec]
    cases v.settled with
    | function id => exact congrArg some (h id)
    | _ => rfl

theorem inspect?_withClosures (h : s.Shows closures) (v : Value) :
    (s.withClosures closures).inspect? v = s.inspect? v :=
  showWithin_withClosures h _ v

theorem equalWithin_withClosures (depth : Nat) (v w : Value) :
    (s.withClosures closures).equalWithin depth v w = s.equalWithin depth v w := by
  induction depth generalizing v w with
  | zero => rfl
  | succ depth ih =>
    have hrec : (s.withClosures closures).equalWithin depth = s.equalWithin depth :=
      funext fun v ↦ funext (ih v)
    unfold equalWithin
    rw [hrec]
    rfl

theorem contains?_withClosures (v : Value) (xs : List Value) :
    (s.withClosures closures).contains? v xs = s.contains? v xs := by
  induction xs with
  | nil => rfl
  | cons x xs ih =>
    have hx : (s.withClosures closures).equal? x v = s.equal? x v :=
      equalWithin_withClosures _ x v
    rw [contains?, contains?, hx, ih]

end Reading

/-! The body of a function starts with the closures that are there. -/

theorem bindAll_withClosures (s : Store) (closures : Array Closure) (id : ScopeId)
    (names : List Name) (args : List Value) :
    (s.withClosures closures).bindAll id names args =
      (s.bindAll id names args).withClosures closures := by
  fun_induction bindAll s id names args with
  | case1 s name names v vs ih => exact ih
  | case2 => simp [bindAll]

theorem enter_withClosures (s : Store) (closures : Array Closure) (f : Closure)
    (args : List Value) :
    (s.withClosures closures).enter f args = (s.enter f args).withClosures closures :=
  bindAll_withClosures (s.enclose f.scope).2 closures ⟨s.scopes.size⟩ f.parameters args

theorem closures_enter (s : Store) (f : Closure) (args : List Value) :
    (s.enter f args).closures = s.closures :=
  (congrArg Store.closures (enter_withClosures s s.closures f args) :)

end Store

/-! ### Operations -/

namespace Eval

variable (scope : ScopeId)

theorem oblivious_binding (name : String) : Oblivious (binding scope name) := by
  refine .get (fun s ↦ ?_) fun s closures _ ↦ ?_
  · split
    · exact .pure _
    · exact .fail _
  · rw [Store.lookup?_withClosures]

theorem oblivious_identifier (known : List Builtin) (name : String) :
    Oblivious (identifier known scope name) := by
  refine .get (fun s ↦ ?_) fun s closures _ ↦ ?_
  · split
    · exact .pure _
    · split
      · exact .pure _
      · exact .fail _
  · rw [Store.lookup?_withClosures]

theorem oblivious_step (direction : StepDirection) (place : StepPlace) (operand : Expr) :
    Oblivious (step scope direction place operand) := by
  unfold step
  split
  · refine (oblivious_binding scope _).bind fun old ↦ (Oblivious.ofExcept _).bind fun new ↦ ?_
    refine (Oblivious.modify fun _ _ ↦ rfl).bind fun _ ↦ ?_
    cases place <;> exact .pure _
  · exact .fail _

theorem oblivious_index (target subscript : Value) : Oblivious (index target subscript) := by
  refine .get (fun s ↦ ?_) fun s closures _ ↦ rfl
  split
  · exact .pure _
  · exact .pure _
  · exact .fail _
  · exact .fail _
  · exact (Oblivious.ofExcept _).bind fun _ ↦ .pure _
  · exact .fail _

theorem oblivious_slice (target : Value) (start stop : Option Value) :
    Oblivious (slice target start stop) := by
  unfold slice
  split
  · refine .get (fun s ↦ ?_) fun s closures _ ↦ rfl
    exact (Oblivious.ofExcept _).bind fun _ ↦ .newArray _
  · exact (Oblivious.ofExcept _).bind fun _ ↦ .pure _
  · exact .fail _

theorem oblivious_range (sort : RangeBound) (start stop : Value) :
    Oblivious (range sort start stop) := by
  unfold range
  split
  · exact (Oblivious.ofExcept _).bind fun _ ↦ .newArray _
  · exact .fail _

theorem oblivious_store (target subscript value : Value) :
    Oblivious (store target subscript value) := by
  unfold store
  split
  · refine .get (fun s ↦ ?_) fun s closures _ ↦ rfl
    dsimp only
    split
    · exact .modify fun _ _ ↦ rfl
    · exact .fail _
  · exact .fail _
  · exact (Oblivious.ofExcept _).bind fun _ ↦ .modify fun _ _ ↦ rfl
  · exact .fail _

theorem oblivious_binary (operator : BinaryOperator) (left right : Value) :
    Oblivious (binary operator left right) := by
  unfold binary
  split
  · exact .pure _
  · exact .pure _
  · extract_lets orFail
    have hfail : ∀ o, Oblivious (orFail o) := by
      intro o
      cases o with
      | some v => exact .pure v
      | none => exact .fail _
    split
    · exact .ofExcept _
    · exact hfail _
    · exact hfail _
    · exact hfail _
    · exact hfail _
    · exact .ite (.get (fun _ ↦ .newArray _) fun _ _ _ ↦ rfl) (.ofExcept _)
    · exact .ofExcept _

end Eval

/-! ### Builtins -/

namespace Builtin

theorem oblivious_texts (args : List Value) : Oblivious (texts args) := by
  refine .get (fun s ↦ ?_) fun s closures hs ↦ ?_
  · induction args with
    | nil => exact .pure _
    | cons v vs ih =>
      rw [List.mapM_cons]
      exact (Oblivious.ofOption _).bind fun _ ↦ ih.bind fun _ ↦ .pure _
  · simp only [Store.inspect?_withClosures hs]

theorem oblivious_write (scope : ScopeId) (text : String) : Oblivious (write scope text) :=
  (Oblivious.modify fun _ _ ↦ rfl).bind fun _ ↦ .pure _

theorem oblivious_len (v : Value) : Oblivious (len v) := by
  refine .get (fun s ↦ ?_) fun s closures _ ↦ rfl
  split <;> exact .pure _

theorem oblivious_first (v : Value) : Oblivious (first v) := by
  unfold first
  split
  · exact .get (fun _ ↦ .pure _) fun _ _ _ ↦ rfl
  · exact .pure _

theorem oblivious_last (v : Value) : Oblivious (last v) := by
  unfold last
  split
  · exact .get (fun _ ↦ .pure _) fun _ _ _ ↦ rfl
  · exact .pure _

theorem oblivious_rest (v : Value) : Oblivious (rest v) := by
  unfold rest
  split
  · exact .get (fun _ ↦ .ite (.pure _) (.newArray _)) fun _ _ _ ↦ rfl
  · exact .pure _

theorem oblivious_push (v element : Value) : Oblivious (push v element) := by
  unfold push
  split
  · exact .get (fun _ ↦ .newArray _) fun _ _ _ ↦ rfl
  · exact .pure _

theorem oblivious_keys (v : Value) : Oblivious (keys v) := by
  unfold keys
  split
  · exact .get (fun _ ↦ .newArray _) fun _ _ _ ↦ rfl
  · exact .pure _

theorem oblivious_values (v : Value) : Oblivious (values v) := by
  unfold values
  split
  · exact .get (fun _ ↦ .newArray _) fun _ _ _ ↦ rfl
  · exact .pure _

theorem oblivious_delete (v key : Value) : Oblivious (delete v key) := by
  unfold delete
  split
  · split
    · exact (Oblivious.modify fun _ _ ↦ rfl).bind fun _ ↦ .pure _
    · exact .pure _
  · exact .pure _

theorem oblivious_contains (v part : Value) : Oblivious (contains v part) := by
  refine .get (fun s ↦ ?_) fun s closures _ ↦ ?_
  · split
    · exact .pure _
    · exact .pure _
    · exact (Oblivious.ofOption _).bind fun _ ↦ .pure _
    · split <;> exact .pure _
    · exact .pure _
  · simp only [Store.contains?_withClosures]
    rfl

theorem oblivious_string (v : Value) : Oblivious (string v) := by
  refine .get (fun s ↦ (Oblivious.ofOption _).bind fun _ ↦ .pure _) fun s closures hs ↦ ?_
  rw [Store.inspect?_withClosures hs]

theorem oblivious_join (v : Value) (separator : Option Value) : Oblivious (join v separator) := by
  unfold join
  split
  · split
    · refine .get (fun s ↦ ?_) fun s closures _ ↦ rfl
      exact (oblivious_texts _).bind fun _ ↦ .pure _
    · exact .pure _
  · exact .pure _

theorem oblivious_split (v : Value) (separator : Option Value) :
    Oblivious (split v separator) := by
  unfold split
  split
  · split
    · exact .newArray _
    · exact .pure _
  · exact .pure _

theorem oblivious_call (b : Builtin) (scope : ScopeId) (args : List Value) :
    Oblivious (b.call scope args) := by
  unfold call
  refine .ite ?_ (.pure _)
  split
  · exact oblivious_len _
  · exact oblivious_first _
  · exact oblivious_last _
  · exact oblivious_rest _
  · exact oblivious_push _ _
  · exact oblivious_keys _
  · exact oblivious_values _
  · exact oblivious_delete _ _
  · exact oblivious_contains _ _
  · exact (oblivious_texts _).bind fun _ ↦ oblivious_write scope _
  · exact (oblivious_texts _).bind fun _ ↦ oblivious_write scope _
  · exact .pure _
  · exact oblivious_string _
  · exact .pure _
  · exact .pure _
  · exact oblivious_join _ _
  · exact oblivious_join _ _
  · exact oblivious_split _ _
  · exact oblivious_split _ _
  · exact .pure _

end Builtin

end Treewalk
