import Treewalk.Proofs.Eval.Errors
import Treewalk.Proofs.Eval.Guards
import Treewalk.Proofs.Eval.Relations

/-!
# Pending returns are never nested

In code that is not guarded a pending return becomes an element, an argument or a value of a hash,
and from there it may come back to a `return`. It is not wrapped a second time then, so no pending
return ever carries another (`visited_unnested`). That is why it is enough that a call and a program
take a result out once: what is left is never pending.
-/

set_option autoImplicit false
set_option relaxedAutoImplicit false

namespace Treewalk

/-- Not a pending return that carries another one. -/
def Value.Unnested (v : Value) : Prop :=
  v.result.IsData

theorem Value.IsData.result_eq {v : Value} (h : v.IsData) : v.result = v := by
  cases v with
  | pending w => cases h
  | _ => rfl

theorem Value.IsData.unnested {v : Value} (h : v.IsData) : v.Unnested := by
  rw [Value.Unnested, h.result_eq]
  exact h

theorem lasting_unnested : Lasting Value.Unnested where
  plain _ h := Value.IsData.unnested h.2
  toPending v h := by
    cases v with
    | pending w => exact h
    | _ => rfl
  result _ h := Value.IsData.unnested h

/-! ### Where a result is taken out -/

section Boundary

variable {known : List Builtin} {depth : Nat} {scope : ScopeId} {s u : Store} {v : Value}

/-- A program never comes to a pending return. -/
theorem Eval.isData_of_program (hs : s.Holds Value.Unnested) {program : Program}
    (h : Eval.program known depth scope program s = .ok (some v) u) : v.IsData := by
  rw [Eval.program, run_bind] at h
  cases hb : Eval.block known depth scope program s with
  | error e t => simp [hb] at h
  | ok r t =>
    have hr : r.map Value.result = some v := by
      simp only [hb, run_pure, EStateM.Result.ok.injEq] at h
      exact h.1
    obtain ⟨w, hw, rfl⟩ := Option.map_eq_some_iff.mp hr
    have hblock := (Eval.confinedAt lasting_unnested known depth).block scope program s hs
    exact (hblock.of_ok hb).2 w hw

theorem isData_of_execute (hs : s.Holds Value.Unnested) {program : Program}
    (h : execute known depth program scope s = some (some v, u)) : v.IsData := by
  unfold execute at h
  split at h
  next r t hp =>
    cases h
    exact Eval.isData_of_program hs hp
  next e t hp =>
    cases h
    rfl
  next => cases h

/-- Nor does a function that is applied to values. -/
theorem Eval.isData_of_apply (hs : s.Holds Value.Unnested) {id : ClosureId} {args : List Value}
    (hargs : ∀ w ∈ args, w.Unnested)
    (h : Eval.apply known depth scope (.function id) args s = .ok v u) : v.IsData := by
  cases depth with
  | zero => cases h
  | succ depth =>
    have hblock := (Eval.confinedAt lasting_unnested known depth).block ⟨s.scopes.size⟩
      (s.closure id).body.body _ (hs.enter (f := s.closure id) hargs)
    have hcall : Ensures (Eval.apply known (depth + 1) scope (.function id) args) s
        (fun w _ ↦ w.IsData) fun _ _ ↦ True := by
      rw [Eval.apply_function]
      simp only [Eval.call, ensures_bind, ensures_get, ensures_modifyGet, ensures_modify,
        ensures_pure]
      refine hblock.imp (fun r t hr ↦ ofMade_isData.getD fun w hw ↦ ?_) fun _ _ _ ↦ trivial
      obtain ⟨x, hx, rfl⟩ := Option.map_eq_some_iff.mp hw
      exact hr.2 x hx
    exact hcall.of_ok h

/-- Nor does the call of a function, whatever its arguments are. -/
theorem Eval.isData_of_call (hs : s.Holds Value.Unnested) {position : Position} {callee : Expr}
    {arguments : List Expr} {id : ClosureId} {t : Store}
    (hf : Eval.expr known depth scope callee s = .ok (.function id) t)
    (h : Eval.expr known (depth + 1) scope (.call position callee arguments) s = .ok v u) :
    v.IsData := by
  have hc := Eval.confinedAt lasting_unnested known depth
  have ht := ((hc.expr scope callee s hs).of_ok hf).1.holds hs
  simp only [Eval.expr, run_bind, hf] at h
  cases hargs : Eval.exprs known depth scope arguments t with
  | error e w => simp [hargs] at h
  | ok vs w =>
    obtain ⟨hevolves, hvs⟩ := (hc.exprs scope arguments t ht).of_ok hargs
    rw [hargs] at h
    exact Eval.isData_of_apply (hevolves.holds ht) hvs h

end Boundary

theorem Builtin.Answers.unnested {v : Value} (h : Builtin.Answers Value.Unnested v) :
    v.Unnested := by
  rcases h with h | h
  · cases v with
    | error message => rfl
    | _ => cases h
  · exact h

/-- In no store that evaluation passes through does a pending return carry another one, if none did
at the start, and no part of a program and no builtin comes to such a value. So neither a program
nor the call of a function comes to a pending return, even where arguments and elements are pending
returns. -/
theorem visited_unnested (known : List Builtin) {s t : Store} (hs : s.Holds Value.Unnested)
    (ht : Visits known (fun _ ↦ True) (fun _ ↦ True) s t) (depth : Nat) (scope : ScopeId) :
    t.Holds Value.Unnested ∧
    (∀ (e : Expr) (v : Value) (u : Store), Eval.expr known depth scope e t = .ok v u →
      v.Unnested) ∧
    (∀ (es : List Expr) (vs : List Value) (u : Store),
      Eval.exprs known depth scope es t = .ok vs u → ∀ v ∈ vs, v.Unnested) ∧
    (∀ (statement : Stmt) (v : Value) (u : Store),
      Eval.stmt known depth scope statement t = .ok (some v) u → v.Unnested) ∧
    (∀ (statements : List Stmt) (v : Value) (u : Store),
      Eval.block known depth scope statements t = .ok (some v) u → v.Unnested) ∧
    (∀ (program : Program) (v : Value) (u : Store),
      execute known depth program scope t = some (some v, u) → v.IsData) ∧
    (∀ (position : Position) (callee : Expr) (arguments : List Expr) (id : ClosureId) (v : Value)
        (u w : Store),
      Eval.expr known depth scope callee t = .ok (.function id) w →
        Eval.expr known (depth + 1) scope (.call position callee arguments) t = .ok v u →
        v.IsData) ∧
    ∀ args : List Value, (∀ v ∈ args, v.Unnested) →
      (∀ (b : Builtin) (v : Value) (u : Store), Builtin.call b scope args t = .ok v u →
        v.Unnested) ∧
      (∀ (callee v : Value) (u : Store), Eval.apply known depth scope callee args t = .ok v u →
        v.Unnested) ∧
      ∀ (id : ClosureId) (v : Value) (u : Store),
        Eval.apply known depth scope (.function id) args t = .ok v u → v.IsData := by
  have ht := ht.holds lasting_unnested hs
  have hc := Eval.confinedAt lasting_unnested known depth
  refine ⟨ht, fun e v u h ↦ ?_, fun es vs u h ↦ ?_, fun statement v u h ↦ ?_,
    fun statements v u h ↦ ?_, fun program v u h ↦ isData_of_execute ht h,
    fun position callee arguments id v u w hf h ↦ Eval.isData_of_call ht hf h,
    fun args hargs ↦ ⟨fun b v u h ↦ ?_, fun callee v u h ↦ ?_, fun id v u h ↦ ?_⟩⟩
  · exact ((hc.expr scope e t ht).of_ok h).2
  · exact ((hc.exprs scope es t ht).of_ok h).2
  · exact ((hc.stmt scope statement t ht).of_ok h).2 v rfl
  · exact ((hc.block scope statements t ht).of_ok h).2 v rfl
  · have hcall : Confined Value.Unnested scope (Builtin.Answers Value.Unnested)
        (Builtin.call b scope args) :=
      Builtin.confined_call (lasting_unnested.kept known).ofMade b scope hargs
    exact ((hcall t ht).of_ok h).2.unnested
  · exact ((hc.apply scope scope callee hargs t ht).of_ok h).2
  · exact Eval.isData_of_apply ht hargs h

/-- Binds `a` to an array with a pending return in it, and `f` to a function that returns the first
element of its argument. -/
def carryingProgram : Program :=
  [.bind default ⟨"a", default⟩ (.array default [.conditional default (.bool default true)
      (.mk default [.ret default (.bool default true)]) none]),
    .bind default ⟨"f", default⟩ (.function default [⟨"x", default⟩] (.mk default
      [.ret default (.index default (.name default "x") (.int default 0))]))]

/-- What that program leaves. -/
def carryingStore : Store :=
  after (Eval.program Builtin.table 9 ⟨0⟩ carryingProgram) Store.empty.openGlobal.2

/-- The pending return in the array comes back to a `return`, and the call takes it out. -/
theorem visited_unnested_carrying :
    Store.empty.openGlobal.2.Holds Value.Unnested ∧
    carryingStore.elements ⟨0⟩ = #[.pending (.bool true)] ∧
    carryingStore.Holds Value.Unnested ∧
    ∃ u : Store,
      Eval.apply Builtin.table 9 ⟨0⟩ (.function ⟨0⟩) [.array ⟨0⟩] carryingStore =
        .ok (.bool true) u ∧
      (Value.bool true).IsData := by
  have hs : Store.empty.openGlobal.2.Holds Value.Unnested := by
    constructor <;> simp [Store.empty, Store.openGlobal]
  have hvisits : Visits Builtin.table (fun _ ↦ True) (fun _ ↦ True) Store.empty.openGlobal.2
      carryingStore :=
    .program 9 ⟨0⟩ (fun _ _ ↦ trivial) .start
  have hargs : ∀ v ∈ [Value.array ⟨0⟩], v.Unnested := by
    intro v hv
    obtain rfl := List.mem_singleton.mp hv
    rfl
  have happly : Eval.apply Builtin.table 9 ⟨0⟩ (.function ⟨0⟩) [.array ⟨0⟩] carryingStore =
      .ok (.bool true)
        (after (Eval.apply Builtin.table 9 ⟨0⟩ (.function ⟨0⟩) [.array ⟨0⟩]) carryingStore) := by
    rfl
  obtain ⟨hholds, -, -, -, -, -, -, hcalls⟩ := visited_unnested Builtin.table hs hvisits 9 ⟨0⟩
  exact ⟨hs, by rfl, hholds, _, happly, (hcalls _ hargs).2.2 _ _ _ happly⟩

end Treewalk
