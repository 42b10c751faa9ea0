import Treewalk.Proofs.Eval.Confinement

/-!
# Scopes are isolated

Evaluation in a scope leaves the bindings of every other scope as they were, and a call leaves the
bindings of all scopes as they were, those of the caller, of the function and of anything around
them included. No binding is ever removed. All of this holds for evaluations that fail or that are
cut off, too.
-/

set_option autoImplicit false
set_option relaxedAutoImplicit false

namespace Treewalk

namespace Store

/-- A scope binds the same names to the same values in both stores. -/
def SameBindings (s t : Store) (id : ScopeId) : Prop :=
  ∀ name : String, t.local? id name = s.local? id name

/-- From `s` to `t`, the bindings of no scope of `s` have changed but those of one scope, and no
binding was removed. -/
structure Isolates (scope : ScopeId) (s t : Store) : Prop where
  others : ∀ id : ScopeId, id.index < s.scopes.size → id ≠ scope → s.SameBindings t id
  bound : ∀ (id : ScopeId) (name : String), (s.local? id name).isSome → (t.local? id name).isSome

/-! ### Bindings after one change -/

section Changes

variable (s : Store) (id j : ScopeId) (name m : String) (v : Value)

theorem local?_bind :
    (s.bind id name v).local? j m =
      if id = j then
        s.scopes[j.index]?.bind fun scope ↦ (Bindings.set name v scope.bindings).lookup m
      else s.local? j m := by
  rw [local?, scopes_bind, Array.getElem?_modify]
  by_cases h : id = j
  · subst h
    rw [if_pos rfl, if_pos rfl, Option.bind_map]
    rfl
  · have hi : id.index ≠ j.index := fun hi ↦ h (by cases id; cases j; simp_all)
    simp [h, hi, local?]

theorem local?_bind_of_ne (h : j ≠ id) : (s.bind id name v).local? j m = s.local? j m := by
  rw [local?_bind, if_neg h.symm]

theorem isSome_local?_bind (h : (s.local? j m).isSome) :
    ((s.bind id name v).local? j m).isSome := by
  rw [local?_bind]
  by_cases hj : id = j
  · rw [if_pos hj]
    unfold local? at h
    cases hscope : s.scopes[j.index]? with
    | none => simp [hscope] at h
    | some scope =>
      rw [hscope] at h
      simp only [Option.bind_some, Bindings.lookup_set] at h ⊢
      split
      · rfl
      · exact h
  · rw [if_neg hj]
    exact h

theorem size_scopes_bind : (s.bind id name v).scopes.size = s.scopes.size :=
  Array.size_modify

end Changes

section Calls

variable (s : Store) (f : Closure) (args : List Value)

theorem size_scopes_bindAll (s : Store) (id : ScopeId) (names : List Name) (args : List Value) :
    (s.bindAll id names args).scopes.size = s.scopes.size := by
  fun_induction Store.bindAll s id names args with
  | case1 s name names v vs ih => rw [ih, size_scopes_bind]
  | case2 => rfl

theorem local?_bindAll_of_ne (s : Store) {id j : ScopeId} (h : j ≠ id) (names : List Name)
    (args : List Value) (m : String) : (s.bindAll id names args).local? j m = s.local? j m := by
  fun_induction Store.bindAll s id names args with
  | case1 s name names v vs ih => rw [ih, local?_bind_of_ne _ _ _ _ _ _ h]
  | case2 => rfl

theorem size_scopes_enter : (s.enter f args).scopes.size = s.scopes.size + 1 := by
  rw [enter, size_scopes_bindAll, enclose, Array.size_push]

/-- The start of a call binds names in the new scope only. -/
theorem local?_enter {id : ScopeId} (h : id.index < s.scopes.size) (m : String) :
    (s.enter f args).local? id m = s.local? id m := by
  have hne : id ≠ ⟨s.scopes.size⟩ := by
    rintro rfl
    exact Nat.lt_irrefl _ h
  rw [enter, local?_bindAll_of_ne _ hne]
  unfold local? enclose
  rw [Array.getElem?_push_lt h, Array.getElem?_eq_getElem h]

theorem index_lt_of_isSome {s : Store} {id : ScopeId} {m : String} (h : (s.local? id m).isSome) :
    id.index < s.scopes.size := by
  by_cases hi : id.index < s.scopes.size
  · exact hi
  · simp [local?, hi] at h

end Calls

end Store

/-! ### Bindings after an evolution -/

section Evolution

variable {P : Value → Prop} {scope : ScopeId} {s t : Store}

theorem Evolves.size_scopes_le (h : Evolves P scope s t) : s.scopes.size ≤ t.scopes.size := by
  induction h with
  | trans _ _ ih ih' => exact Nat.le_trans ih ih'
  | bind s name _ => exact Nat.le_of_eq (Store.size_scopes_bind ..).symm
  | call id _ _ ih =>
    rw [Store.size_scopes_enter] at ih
    exact Nat.le_of_succ_le ih
  | _ => exact Nat.le_refl _

/-- Steps in a scope bind names in no other scope that is there already. -/
theorem Evolves.sameBindings (h : Evolves P scope s t) {id : ScopeId}
    (hid : id.index < s.scopes.size) (hne : id ≠ scope) : s.SameBindings t id := by
  induction h with
  | trans h _ ih ih' =>
    intro name
    rw [ih' (Nat.lt_of_lt_of_le hid h.size_scopes_le) hne name, ih hid hne name]
  | bind s name _ => exact fun m ↦ Store.local?_bind_of_ne _ _ _ _ _ _ hne
  | @call scope s t f args _ _ ih =>
    have hlt : id.index < (s.enter (s.closure f) args).scopes.size := by
      rw [Store.size_scopes_enter]
      exact Nat.lt_succ_of_lt hid
    have hnew : id ≠ ⟨s.scopes.size⟩ := by
      rintro rfl
      exact Nat.lt_irrefl _ hid
    intro name
    rw [ih hlt hnew name, Store.local?_enter s _ args hid]
  | _ => exact fun _ ↦ rfl

theorem Evolves.isSome_local? (h : Evolves P scope s t) {id : ScopeId} {m : String}
    (hm : (s.local? id m).isSome) : (t.local? id m).isSome := by
  induction h with
  | trans _ _ ih ih' => exact ih' (ih hm)
  | bind s name _ => exact Store.isSome_local?_bind _ _ _ _ _ _ hm
  | call f _ _ ih =>
    refine ih ?_
    rw [Store.local?_enter _ _ _ (Store.index_lt_of_isSome hm)]
    exact hm
  | _ => exact hm

theorem Evolves.isolates (h : Evolves P scope s t) : Store.Isolates scope s t :=
  ⟨fun _ hid hne ↦ h.sameBindings hid hne, fun _ _ hm ↦ h.isSome_local? hm⟩

end Evolution

/-! ### Evaluation -/

/-- Evaluating an expression or a statement in a scope changes no binding in another scope that is
there already and removes none anywhere. Calling a function or a builtin changes no binding in any
scope that is there already. -/
theorem evaluation_isolates (known : List Builtin) (depth : Nat) (scope : ScopeId) (s : Store) :
    (∀ e : Expr, Store.Isolates scope s (after (Eval.expr known depth scope e) s)) ∧
    (∀ statement : Stmt, Store.Isolates scope s (after (Eval.stmt known depth scope statement) s)) ∧
    ∀ (callee : Value) (args : List Value) (id : ScopeId), id.index < s.scopes.size →
      s.SameBindings (after (Eval.apply known depth scope callee args) s) id := by
  have h := Eval.confinedAt lasting_true known depth
  refine ⟨fun e ↦ ?_, fun statement ↦ ?_, fun callee args id hid ↦ ?_⟩
  · exact ((h.expr scope e).evolves s.holds_true).isolates
  · exact ((h.stmt scope statement).evolves s.holds_true).isolates
  · -- A call is confined to every scope, so also to one that is not the scope in question.
    have hne : id ≠ ⟨id.index + 1⟩ := fun he ↦ absurd (congrArg ScopeId.index he) (by simp)
    have hcall := h.apply ⟨id.index + 1⟩ scope callee fun v (_ : v ∈ args) ↦ trivial
    exact (hcall.evolves s.holds_true).sameBindings hid hne

/-- A scope that binds `x` to a number, and a function made there that steps `x`. -/
def steppingStore : Store :=
  let body : Block := .mk default [.expr default (.step default .up .after (.name default "x"))]
  ⟨#[], #[⟨[], body, ⟨0⟩⟩], #[⟨[("x", .int 1)], none, ⟨0⟩⟩], #[""]⟩

/-- A call of the function binds `x` to the next number in a new scope, and in the outer scope `x`
stays what it was. -/
theorem evaluation_isolates_stepping :
    0 < steppingStore.scopes.size ∧
    steppingStore.SameBindings
      (after (Eval.apply [] 5 ⟨0⟩ (.function ⟨0⟩) []) steppingStore) ⟨0⟩ ∧
    (after (Eval.apply [] 5 ⟨0⟩ (.function ⟨0⟩) []) steppingStore).local? ⟨1⟩ "x" =
      some (.int 2) := by
  have hsize : 0 < steppingStore.scopes.size := by decide
  refine ⟨hsize, ?_, by rfl⟩
  exact (evaluation_isolates [] 5 ⟨0⟩ steppingStore).2.2 (.function ⟨0⟩) [] ⟨0⟩ hsize

end Treewalk
