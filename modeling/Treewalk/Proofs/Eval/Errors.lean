import Treewalk.Proofs.Eval.Confinement
import Treewalk.Proofs.Eval.Course

/-!
# Errors only end programs

Builtins answer a misuse with an error value, and such a value is also what a failed program comes
to. In between there are none: a call turns the error of a builtin into a failure, so no expression
and no statement has an error as its value, and none is ever stored, whatever is evaluated from a
store without errors. That a program comes to an error therefore says that it failed, and no
statement behind the one that failed was evaluated (`execute_eq_error_iff`).
-/

set_option autoImplicit false
set_option relaxedAutoImplicit false

namespace Treewalk

/-- Neither an error nor a pending return that carries one. -/
def Value.NoError (v : Value) : Prop :=
  v.settled.isError = false

theorem lasting_noError : Lasting Value.NoError where
  plain v h := by
    cases v with
    | error m => exact h.1
    | pending w => exact absurd h.2 (by simp [Value.isPending])
    | _ => rfl
  toPending v h := by cases v <;> exact h
  result v h := by cases v <;> exact h

/-- A property that evaluation cannot lose holds in every store on the way. -/
theorem Visits.holds_of_kept {P : Value → Prop} {known : List Builtin} (hP : Kept known P)
    {E : Expr → Prop} {S : Stmt → Prop} {s t : Store} (h : Visits known E S s t)
    (hs : s.Holds P) : t.Holds P := by
  induction h with
  | start => exact hs
  | expr depth scope _ _ ih =>
    exact (((Eval.confinedAt_of_kept hP depth).expr scope _).evolves ih).holds ih
  | stmt depth scope _ _ ih =>
    exact (((Eval.confinedAt_of_kept hP depth).stmt scope _).evolves ih).holds ih
  | program depth scope _ _ ih =>
    exact ((Eval.confined_program_of_kept hP depth scope _).evolves ih).holds ih
  | enter depth scope id _ _ hu ih =>
    obtain ⟨hev, hvalues⟩ := ((Eval.confinedAt_of_kept hP depth).exprs scope _ _ ih).of_ok hu
    exact (hev.holds ih).enter hvalues

theorem Visits.holds {P : Value → Prop} (hP : Lasting P) {known : List Builtin} {E : Expr → Prop}
    {S : Stmt → Prop} {s t : Store} (h : Visits known E S s t) (hs : s.Holds P) : t.Holds P :=
  h.holds_of_kept (hP.kept known) hs

section Boundary

variable {known : List Builtin} {depth : Nat} {scope : ScopeId} {program : Program} {s u : Store}

/-- A program comes to an error exactly when it fails with that message. -/
theorem execute_eq_error_iff (hs : s.Holds Value.NoError) (message : String) :
    execute known depth program scope s = some (some (.error message), u) ↔
      ∃ e : RuntimeError, Eval.program known depth scope program s = .error (.failed e) u ∧
        e.message = message := by
  unfold execute
  cases h : Eval.program known depth scope program s with
  | ok r t =>
    have hr := ((Eval.confined_program lasting_noError known depth scope program) s hs).of_ok h
    suffices r ≠ some (.error message) by simp [this]
    rintro rfl
    cases hr.2 _ rfl
  | error e t =>
    cases e with
    | failed e => grind
    | exhausted => simp

theorem program_eq_error_iff {e : Stop} :
    Eval.program known depth scope program s = .error e u ↔
      Eval.block known depth scope program s = .error e u := by
  simp only [Eval.program, run_bind]
  cases Eval.block known depth scope program s <;> simp

/-- A program fails in one of its statements, and whatever stands behind that statement, it fails
in the same way. -/
theorem exists_of_program_error {e : RuntimeError}
    (h : Eval.program known depth scope program s = .error (.failed e) u) :
    ∃ (before : List Stmt) (statement : Stmt) (rest : List Stmt) (r : Option Value) (t : Store),
      program = before ++ statement :: rest ∧
      Eval.block known depth scope before s = .ok r t ∧ Eval.endsBlock r = false ∧
      Eval.stmt known (depth - before.length - 1) scope statement t = .error (.failed e) u ∧
      ∀ others : List Stmt,
        Eval.program known depth scope (before ++ statement :: others) s =
          .error (.failed e) u := by
  obtain ⟨before, statement, rest, r, t, rfl, hb, hr, hlt, hst⟩ :=
    Eval.exists_of_block_error (program_eq_error_iff.mp h)
  refine ⟨before, statement, rest, r, t, rfl, hb, hr, hst, fun others ↦ ?_⟩
  have hcons := Eval.block_cons_error hst others
  rw [Nat.sub_add_cancel (Nat.sub_pos_of_lt hlt)] at hcons
  rw [program_eq_error_iff, Eval.block_append before (List.cons_ne_nil statement others), hb]
  simpa [hr] using hcons

end Boundary

/-- In no store that evaluation passes through is there an error, if there was none at the start,
and no expression and no statement has one as its value. So a program comes to an error exactly when
it fails, with the message of the failure; then one statement failed after all before it had gone
through, and those behind it had no part. -/
theorem visited_noError (known : List Builtin) {s t : Store} (hs : s.Holds Value.NoError)
    (ht : Visits known (fun _ ↦ True) (fun _ ↦ True) s t) (depth : Nat) (scope : ScopeId) :
    t.Holds Value.NoError ∧
    (∀ (e : Expr) (v : Value) (u : Store), Eval.expr known depth scope e t = .ok v u →
      v.NoError) ∧
    (∀ (statement : Stmt) (v : Value) (u : Store),
      Eval.stmt known depth scope statement t = .ok (some v) u → v.NoError) ∧
    ∀ (program : Program) (u : Store),
      (∀ message : String,
        execute known depth program scope t = some (some (.error message), u) ↔
          ∃ e : RuntimeError, Eval.program known depth scope program t = .error (.failed e) u ∧
            e.message = message) ∧
      ∀ e : RuntimeError, Eval.program known depth scope program t = .error (.failed e) u →
        ∃ (before : List Stmt) (statement : Stmt) (rest : List Stmt) (r : Option Value)
            (w : Store),
          program = before ++ statement :: rest ∧
          Eval.block known depth scope before t = .ok r w ∧ Eval.endsBlock r = false ∧
          Eval.stmt known (depth - before.length - 1) scope statement w = .error (.failed e) u ∧
          ∀ others : List Stmt,
            Eval.program known depth scope (before ++ statement :: others) t =
              .error (.failed e) u := by
  have ht := ht.holds lasting_noError hs
  have hc := Eval.confinedAt lasting_noError known depth
  refine ⟨ht, fun e v u he ↦ ?_, fun statement v u hst ↦ ?_, fun program u ↦ ⟨fun message ↦ ?_, ?_⟩⟩
  · exact ((hc.expr scope e t ht).of_ok he).2
  · exact ((hc.stmt scope statement t ht).of_ok hst).2 v rfl
  · exact execute_eq_error_iff ht message
  · exact fun e he ↦ exists_of_program_error he

/-- A scope that binds `a` to an array of one number. -/
def singletonStore : Store :=
  ⟨#[.array #[.int 1]], #[], #[⟨[("a", .array ⟨0⟩)], none, ⟨0⟩⟩], #[""]⟩

/-- A program that takes the number out of the array, asks for its length and goes on. -/
def lengthProgram : Program :=
  [.bind default ⟨"b", default⟩ (.call default (.name default "first") [.name default "a"]),
    .expr default (.call default (.name default "len") [.name default "b"]),
    .bind default ⟨"c", default⟩ (.int default 2)]

/-- The program comes to the error of the builtin. The first binding is made, the last is not. -/
theorem visited_noError_length :
    singletonStore.Holds Value.NoError ∧
    ∃ u : Store,
      execute Builtin.table 9 lengthProgram ⟨0⟩ singletonStore =
        some (some (.error "argument to len not supported, got INTEGER"), u) ∧
      u.Holds Value.NoError ∧
      (∃ e : RuntimeError,
        Eval.program Builtin.table 9 ⟨0⟩ lengthProgram singletonStore = .error (.failed e) u ∧
          e.message = "argument to len not supported, got INTEGER") ∧
      u.local? ⟨0⟩ "b" = some (.int 1) ∧ u.local? ⟨0⟩ "c" = none := by
  have hs : singletonStore.Holds Value.NoError := by
    refine ⟨?_, ?_⟩
    · simp [singletonStore, Cell.Holds, Value.NoError, Value.settled, Value.isError]
    · simp [singletonStore, Value.NoError, Value.settled, Value.isError]
  have hu : Visits Builtin.table (fun _ ↦ True) (fun _ ↦ True) singletonStore
      (after (Eval.program Builtin.table 9 ⟨0⟩ lengthProgram) singletonStore) :=
    .program 9 ⟨0⟩ (fun _ _ ↦ trivial) .start
  have he : execute Builtin.table 9 lengthProgram ⟨0⟩ singletonStore =
      some (some (.error "argument to len not supported, got INTEGER"),
        after (Eval.program Builtin.table 9 ⟨0⟩ lengthProgram) singletonStore) := by
    rfl
  have hboundary := (visited_noError Builtin.table hs .start 9 ⟨0⟩).2.2.2 lengthProgram
  exact ⟨hs, _, he, (visited_noError Builtin.table hs hu 9 ⟨0⟩).1, ((hboundary _).1 _).mp he,
    by rfl, by rfl⟩

end Treewalk
