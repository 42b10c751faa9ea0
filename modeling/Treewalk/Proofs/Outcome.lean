import Treewalk.Eval.Error
import Treewalk.Grammar.Cursor

/-!
# Outcomes of computations

Readers and evaluations both thread a state through a computation that may fail, and a failure keeps
the state as it was left. `Ensures m s Q E` says what holds of either outcome, and the lemmas below
take it apart along the structure of `m`: the condition for a sequence is the condition for its
first part, with the condition for the second part as what has to hold of the result.
-/

set_option autoImplicit false
set_option relaxedAutoImplicit false

namespace Treewalk

variable {ε σ α β : Type}

/-- Started in the state `s`, the computation `m` gives a result and a state with `Q`, or it fails
with a cause and a state with `E`. -/
def Ensures (m : EStateM ε σ α) (s : σ) (Q : α → σ → Prop) (E : ε → σ → Prop) : Prop :=
  match m s with
  | .ok a t => Q a t
  | .error e t => E e t

instance Ensures.decidable (m : EStateM ε σ α) (s : σ) (Q : α → σ → Prop) (E : ε → σ → Prop)
    [∀ a t, Decidable (Q a t)] [∀ e t, Decidable (E e t)] : Decidable (Ensures m s Q E) :=
  match h : m s with
  | .ok a t => decidable_of_iff (Q a t) (by rw [Ensures, h])
  | .error e t => decidable_of_iff (E e t) (by rw [Ensures, h])

/-- The state that a computation leaves, whether it gives a result or fails. -/
def after (m : EStateM ε σ α) (s : σ) : σ :=
  match m s with
  | .ok _ t => t
  | .error _ t => t

/-- The result or the cause of failure of a computation, without the state. -/
def answer (m : EStateM ε σ α) (s : σ) : Except ε α :=
  match m s with
  | .ok a _ => .ok a
  | .error e _ => .error e

/-- An outcome with its result, its cause of failure and its state changed. -/
def mapOutcome (f : α → β) (g : ε → ε) (h : σ → σ) :
    EStateM.Result ε σ α → EStateM.Result ε σ β
  | .ok a s => .ok (f a) (h s)
  | .error e s => .error (g e) (h s)

/-! ### Running a computation -/

@[simp] theorem run_pure (a : α) (s : σ) : (pure a : EStateM ε σ α) s = .ok a s :=
  rfl

@[simp] theorem run_get (s : σ) : (get : EStateM ε σ σ) s = .ok s s :=
  rfl

@[simp] theorem run_modifyGet (f : σ → α × σ) (s : σ) :
    (modifyGet f : EStateM ε σ α) s = .ok (f s).1 (f s).2 :=
  rfl

@[simp] theorem run_bind (m : EStateM ε σ α) (f : α → EStateM ε σ β) (s : σ) :
    (m >>= f) s =
      match m s with
      | .ok a t => f a t
      | .error e t => .error e t :=
  rfl

@[simp] theorem run_map (f : α → β) (m : EStateM ε σ α) (s : σ) :
    (f <$> m) s =
      match m s with
      | .ok a t => .ok (f a) t
      | .error e t => .error e t :=
  rfl

/-! ### What holds of the outcome -/

section Rules

variable {Q : α → σ → Prop} {E : ε → σ → Prop} {s : σ}

@[simp] theorem ensures_pure {a : α} : Ensures (pure a) s Q E ↔ Q a s :=
  Iff.rfl

@[simp] theorem ensures_throw {e : ε} : Ensures (throw e) s Q E ↔ E e s :=
  Iff.rfl

@[simp] theorem ensures_get {Q : σ → σ → Prop} : Ensures get s Q E ↔ Q s s :=
  Iff.rfl

@[simp] theorem ensures_modify {Q : PUnit → σ → Prop} {f : σ → σ} :
    Ensures (modify f) s Q E ↔ Q ⟨⟩ (f s) :=
  Iff.rfl

@[simp] theorem ensures_modifyGet {f : σ → α × σ} :
    Ensures (modifyGet f) s Q E ↔ Q (f s).1 (f s).2 :=
  Iff.rfl

@[simp] theorem ensures_bind {Q : β → σ → Prop} {m : EStateM ε σ α} {f : α → EStateM ε σ β} :
    Ensures (m >>= f) s Q E ↔ Ensures m s (fun a t ↦ Ensures (f a) t Q E) E := by
  simp only [Ensures, run_bind]
  cases m s <;> rfl

@[simp] theorem ensures_ite {p : Prop} [Decidable p] {m n : EStateM ε σ α} :
    Ensures (if p then m else n) s Q E ↔
      (p → Ensures m s Q E) ∧ (¬ p → Ensures n s Q E) := by
  by_cases hp : p <;> simp [hp]

end Rules

/-- What holds of the outcomes may be weakened. -/
theorem Ensures.imp {m : EStateM ε σ α} {s : σ} {Q R : α → σ → Prop} {E F : ε → σ → Prop}
    (h : Ensures m s Q E) (hQ : ∀ a t, Q a t → R a t) (hE : ∀ e t, E e t → F e t) :
    Ensures m s R F := by
  unfold Ensures at h ⊢
  cases hm : m s with
  | ok a t =>
    rw [hm] at h
    exact hQ a t h
  | error e t =>
    rw [hm] at h
    exact hE e t h

/-- Two things that hold of the outcomes hold together. -/
theorem Ensures.and {m : EStateM ε σ α} {s : σ} {Q R : α → σ → Prop} {E F : ε → σ → Prop}
    (h : Ensures m s Q E) (h' : Ensures m s R F) :
    Ensures m s (fun a t ↦ Q a t ∧ R a t) fun e t ↦ E e t ∧ F e t := by
  unfold Ensures at h h' ⊢
  cases hm : m s with
  | ok a t =>
    rw [hm] at h h'
    exact ⟨h, h'⟩
  | error e t =>
    rw [hm] at h h'
    exact ⟨h, h'⟩

/-- What holds of the state in either outcome holds of the state that is left. -/
theorem Ensures.of_after {m : EStateM ε σ α} {s : σ} {R : σ → Prop}
    (h : Ensures m s (fun _ t ↦ R t) fun _ t ↦ R t) : R (after m s) := by
  unfold Ensures at h
  unfold after
  cases hm : m s with
  | ok a t =>
    rw [hm] at h
    exact h
  | error e t =>
    rw [hm] at h
    exact h

theorem Ensures.of_ok {m : EStateM ε σ α} {s t : σ} {a : α} {Q : α → σ → Prop} {E : ε → σ → Prop}
    (h : Ensures m s Q E) (hm : m s = .ok a t) : Q a t := by
  unfold Ensures at h
  rw [hm] at h
  exact h

theorem Ensures.of_error {m : EStateM ε σ α} {s t : σ} {e : ε} {Q : α → σ → Prop}
    {E : ε → σ → Prop} (h : Ensures m s Q E) (hm : m s = .error e t) : E e t := by
  unfold Ensures at h
  rw [hm] at h
  exact h

end Treewalk
