import Treewalk.Proofs.Eval.Course
import Treewalk.Proofs.Eval.Independence
import Treewalk.Proofs.Grammar.Joining

/-!
# Running a text line by line

Two source texts joined by a line feed are read as the statements of the first and those of the
second at places further on, if the first has no errors and ends in a semicolon or a comment
(`Parsed.ofSource_append_newline`). Evaluating the joined text then comes to the same as evaluating
one text after the other (`evaluate_append_newline`): when the first runs through, what the second
comes to in the store that is left, up to the places in the bodies of functions; when the first ends
in an error or a return, exactly what the first comes to.
-/

set_option autoImplicit false
set_option relaxedAutoImplicit false

namespace Treewalk

/-- Evaluating a source text ends, with a value or without, and leaves the store `t`. -/
def Finishes (source : String) (scope : ScopeId) (s : Store) (value : Option Value) (t : Store) :
    Prop :=
  ∃ depth, evaluate depth source scope s = .finished value t

/-- Evaluating a source text ends in an error or in a return outside functions. -/
def StopsEarly (source : String) (scope : ScopeId) (s : Store) : Prop :=
  ∃ depth, Ensures (Eval.block Builtin.table depth scope (Parsed.ofSource source).program) s
    (fun r _ ↦ Eval.endsBlock r = true) fun e _ ↦ e ≠ .exhausted

/-! ### Evaluations of texts without errors -/

/-- What an evaluation of statements comes to as that of a whole text. -/
def Evaluation.ofBlock : EStateM.Result Stop Store (Option Value) → Evaluation
  | .ok r t => .finished (r.map Value.result) t
  | .error (.failed e) t => .finished (some (.error e.message)) t
  | .error .exhausted _ => .exhausted

theorem evaluate_eq_ofBlock {source : String} (h : (Parsed.ofSource source).errors = [])
    (depth : Nat) (scope : ScopeId) (s : Store) :
    evaluate depth source scope s =
      .ofBlock (Eval.block Builtin.table depth scope (Parsed.ofSource source).program s) := by
  have hread : readProgram source defaultSource = .ok (Parsed.ofSource source).program := by
    simp [readProgram, h]
  rw [evaluate, evaluateWith, hread]
  simp only [execute, Eval.program, run_bind]
  cases Eval.block Builtin.table depth scope (Parsed.ofSource source).program s with
  | ok r t => rfl
  | error e t => cases e <;> rfl

/-- Evaluations of statements that are the same up to places end with the same value and the same
store up to places. -/
theorem Evaluation.exists_of_mapOutcome_eq {x y : EStateM.Result Stop Store (Option Value)}
    {value : Option Value} {t : Store}
    (h : mapOutcome id id Store.erase x = mapOutcome id id Store.erase y)
    (hx : Evaluation.ofBlock x = .finished value t) :
    ∃ u, Evaluation.ofBlock y = .finished value u ∧ u.erase = t.erase := by
  cases x with
  | ok r t' =>
    cases y with
    | error f u => cases h
    | ok r' u =>
      obtain ⟨rfl, ht⟩ := EStateM.Result.ok.inj h
      obtain ⟨rfl, rfl⟩ := Evaluation.finished.inj hx
      exact ⟨u, rfl, ht.symm⟩
  | error e t' =>
    cases y with
    | ok r' u => cases h
    | error f u =>
      obtain ⟨rfl, ht⟩ := EStateM.Result.error.inj h
      cases e with
      | exhausted => cases hx
      | failed e =>
        obtain ⟨rfl, rfl⟩ := Evaluation.finished.inj hx
        exact ⟨u, rfl, ht.symm⟩

theorem Evaluation.ne_exhausted {x : EStateM.Result Stop Store (Option Value)}
    {value : Option Value} {t : Store} (h : Evaluation.ofBlock x = .finished value t) (u : Store) :
    x ≠ .error .exhausted u := by
  rintro rfl
  cases h

section Statements

variable {source : String} {scope : ScopeId} {s t : Store} {depth : Nat} {r : Option Value}

/-- A text whose statements all run through under one bound does not stop early under any. -/
theorem not_stopsEarly
    (h : Eval.block Builtin.table depth scope (Parsed.ofSource source).program s = .ok r t)
    (hr : Eval.endsBlock r = false) : ¬ StopsEarly source scope s := by
  rintro ⟨depth', hstop⟩
  have hsame : Eval.block Builtin.table depth' scope (Parsed.ofSource source).program s =
      .ok r t := by
    rw [← h]
    exact Eval.block_eq_block (fun u hu ↦ hstop.of_error hu rfl) (by simp [h])
  exact Bool.noConfusion (hr.symm.trans (hstop.of_ok hsame))

/-- A text that ends does so in the same way under a larger bound. -/
theorem evaluate_of_le (herrors : (Parsed.ofSource source).errors = []) {depth' : Nat}
    (hle : depth ≤ depth') {value : Option Value}
    (h : evaluate depth source scope s = .finished value t) :
    evaluate depth' source scope s = .finished value t := by
  rw [evaluate_eq_ofBlock herrors] at h ⊢
  rw [Eval.block_of_le hle (Evaluation.ne_exhausted h), h]

/-- The statements of a text that ends and does not stop early run through. -/
theorem Finishes.exists_block {value : Option Value} (h : Finishes source scope s value t)
    (herrors : (Parsed.ofSource source).errors = []) (hstop : ¬ StopsEarly source scope s) :
    ∃ depth r,
      Eval.block Builtin.table depth scope (Parsed.ofSource source).program s = .ok r t ∧
        Eval.endsBlock r = false := by
  obtain ⟨depth, h⟩ := h
  rw [evaluate_eq_ofBlock herrors] at h
  cases hb : Eval.block Builtin.table depth scope (Parsed.ofSource source).program s with
  | ok r u =>
    rw [hb] at h
    obtain ⟨-, rfl⟩ := Evaluation.finished.inj h
    refine ⟨depth, r, hb, ?_⟩
    by_contra hr
    refine hstop ⟨depth, ?_⟩
    rw [Ensures, hb]
    exact Bool.eq_true_of_not_eq_false hr
  | error e u =>
    cases e with
    | exhausted =>
      rw [hb] at h
      cases h
    | failed e =>
      refine absurd ⟨depth, ?_⟩ hstop
      rw [Ensures, hb]
      exact Stop.noConfusion

end Statements

/-! ### Two texts -/

section Joined

variable {first second : String} {scope : ScopeId} {s t : Store}
  (h : (Parsed.ofSource first).errors = []) (hends : EndsClosed (Token.ofSource first))
  (hsecond : (Parsed.ofSource second).errors = [])

include h hends hsecond

/-- Evaluating the joined text, statement by statement. -/
theorem evaluate_joined (depth : Nat) (scope : ScopeId) (s : Store) :
    evaluate depth (first ++ "\n" ++ second) scope s =
      .ofBlock (Eval.block Builtin.table depth scope ((Parsed.ofSource first).program ++
        (Parsed.ofSource second).program.map (Stmt.relocate (.behind first))) s) := by
  have hread := Parsed.ofSource_append_newline h hends second
  have herrors : (Parsed.ofSource (first ++ "\n" ++ second)).errors = [] := by
    rw [hread]
    simp [Parsed.relocate, hsecond]
  rw [evaluate_eq_ofBlock herrors, hread]
  rfl

/-- The first text stops early: the second is not evaluated. -/
theorem evaluate_joined_of_stopsEarly (hstop : StopsEarly first scope s) (depth : Nat) :
    evaluate depth (first ++ "\n" ++ second) scope s = evaluate depth first scope s := by
  rw [evaluate_joined h hends hsecond, evaluate_eq_ofBlock h]
  by_cases hnil : (Parsed.ofSource second).program = []
  · rw [hnil, List.map_nil, List.append_nil]
  rw [Eval.block_append _ (by simpa using hnil)]
  cases hb : Eval.block Builtin.table depth scope (Parsed.ofSource first).program s with
  | error e u => rfl
  | ok r u =>
    cases hr : Eval.endsBlock r with
    | true => simp [hr]
    | false => exact absurd hstop (not_stopsEarly hb hr)

/-- The first text runs through: the second is evaluated in the store that is left, under what
remains of the bound. -/
theorem evaluate_joined_of_block (hnil : (Parsed.ofSource second).program ≠ []) {depth : Nat}
    {r : Option Value}
    (hb : Eval.block Builtin.table depth scope (Parsed.ofSource first).program s = .ok r t)
    (hr : Eval.endsBlock r = false) :
    evaluate depth (first ++ "\n" ++ second) scope s =
      .ofBlock (Eval.block Builtin.table (depth - (Parsed.ofSource first).program.length) scope
        ((Parsed.ofSource second).program.map (Stmt.relocate (.behind first))) t) := by
  rw [evaluate_joined h hends hsecond, Eval.block_append _ (by simpa using hnil), hb]
  simp [hr]

/-- The first text runs through: the joined text ends as the second does in the store that is left,
up to places. -/
theorem finishes_joined (hnil : (Parsed.ofSource second).program ≠ []) {w : Option Value}
    (hfirst : Finishes first scope s w t) (hstop : ¬ StopsEarly first scope s)
    (value : Option Value) (u : Store) :
    (∃ u', Finishes (first ++ "\n" ++ second) scope s value u' ∧ u'.erase = u) ↔
      ∃ u', Finishes second scope t value u' ∧ u'.erase = u := by
  obtain ⟨depth, r, hb, hr⟩ := hfirst.exists_block h hstop
  have hend : ∀ u, Eval.block Builtin.table depth scope (Parsed.ofSource first).program s ≠
      .error .exhausted u := by
    simp [hb]
  constructor
  · rintro ⟨u', ⟨depth', hjoined⟩, rfl⟩
    -- Under this bound the first text is not cut off, so it leaves the same store.
    have hb' : Eval.block Builtin.table depth' scope (Parsed.ofSource first).program s =
        .ok r t := by
      rw [← hb]
      refine Eval.block_eq_block (fun u hu ↦ ?_) hend
      rw [evaluate_joined h hends hsecond, Eval.block_append _ (by simpa using hnil), hu] at hjoined
      cases hjoined
    rw [evaluate_joined_of_block h hends hsecond hnil hb' hr] at hjoined
    obtain ⟨u'', hu, herase⟩ :=
      Evaluation.exists_of_mapOutcome_eq (Eval.block_map_relocate _ _ _ _ _ _) hjoined
    exact ⟨u'', ⟨_, (evaluate_eq_ofBlock hsecond _ _ _).trans hu⟩, herase⟩
  · rintro ⟨u', ⟨depth', hu⟩, rfl⟩
    -- A bound that is large enough for both texts.
    let enough := depth + (depth' + (Parsed.ofSource first).program.length)
    have hb' : Eval.block Builtin.table enough scope (Parsed.ofSource first).program s =
        .ok r t := by
      rw [← hb]
      exact Eval.block_of_le (Nat.le_add_right _ _) hend
    have hle : depth' ≤ enough - (Parsed.ofSource first).program.length := by omega
    have hu := evaluate_of_le hsecond hle hu
    rw [evaluate_eq_ofBlock hsecond] at hu
    obtain ⟨u'', hu, herase⟩ :=
      Evaluation.exists_of_mapOutcome_eq (Eval.block_map_relocate _ _ _ _ _ _).symm hu
    exact ⟨u'', ⟨enough, (evaluate_joined_of_block h hends hsecond hnil hb' hr).trans hu⟩, herase⟩

end Joined

/-- Running a text of two parts is running one part after the other. The first part has no errors
and ends in a semicolon or a comment. Then the statements of the two follow each other, those of the
second, like its errors, at places that are further on by the length and the lines of the first. If
the second has no errors either, the joined text stops where the first stops, exactly as it does;
and if the first runs through, it ends as the second ends in the store that is left, up to the
places in the bodies of functions. -/
theorem evaluate_append_newline {first : String} (h : (Parsed.ofSource first).errors = [])
    (hends : EndsClosed (Token.ofSource first)) (second : String) :
    Parsed.ofSource (first ++ "\n" ++ second) =
      ⟨(Parsed.ofSource first).program ++
          (Parsed.ofSource second).program.map (Stmt.relocate (.behind first)),
        (Parsed.ofSource second).errors.map (ParseError.relocate (.behind first))⟩ ∧
    ((Parsed.ofSource second).errors = [] → ∀ (scope : ScopeId) (s : Store),
      (∀ (w : Option Value) (t : Store), Finishes first scope s w t → ¬ StopsEarly first scope s →
        (Parsed.ofSource second).program ≠ [] → ∀ (value : Option Value) (u : Store),
          (∃ u', Finishes (first ++ "\n" ++ second) scope s value u' ∧ u'.erase = u) ↔
            ∃ u', Finishes second scope t value u' ∧ u'.erase = u) ∧
      (StopsEarly first scope s → ∀ depth : Nat,
        evaluate depth (first ++ "\n" ++ second) scope s = evaluate depth first scope s)) := by
  refine ⟨Parsed.ofSource_append_newline h hends second, fun hsecond scope s ↦ ⟨?_, ?_⟩⟩
  · intro w t hfirst hstop hnil value u
    exact finishes_joined h hends hsecond hnil hfirst hstop value u
  · exact evaluate_joined_of_stopsEarly h hends hsecond

theorem Value.int_sameAs_iff {n : Int64} {v : Value} :
    (Value.int n).sameAs v = true ↔ v = .int n := by
  cases v <;> simp [sameAs, eq_comm]

/-- A function that uses a binding of the line before it, and a line that is not reached. -/
theorem evaluate_append_newline_call :
    let bound := "let a = 1;"
    let used := "fn(i) \x7b a + i \x7d(1)"
    let s := Store.empty.openGlobal.2
    (∃ (w : Option Value) (t : Store), Finishes bound ⟨0⟩ s w t ∧ ¬ StopsEarly bound ⟨0⟩ s ∧
      ∃ u, Finishes used ⟨0⟩ t (some (.int 2)) u) ∧
    StopsEarly "return 5;" ⟨0⟩ s ∧
    ∀ depth,
      evaluate depth ("return 5;" ++ "\n" ++ used) ⟨0⟩ s = evaluate depth "return 5;" ⟨0⟩ s := by
  intro bound used s
  have hbound : (Parsed.ofSource bound).errors = [] := List.isEmpty_iff.mp (by decide +kernel)
  have hused : (Parsed.ofSource used).errors = [] := List.isEmpty_iff.mp (by decide +kernel)
  have hreturn : (Parsed.ofSource "return 5;").errors = [] :=
    List.isEmpty_iff.mp (by decide +kernel)
  have hends : EndsClosed (Token.ofSource bound) := by
    unfold EndsClosed
    decide +kernel
  have hends' : EndsClosed (Token.ofSource "return 5;") := by
    unfold EndsClosed
    decide +kernel
  have hnil : (Parsed.ofSource used).program ≠ [] := by
    rw [← List.isEmpty_eq_false_iff]
    decide +kernel
  have hrun : Ensures (Eval.block Builtin.table 9 ⟨0⟩ (Parsed.ofSource bound).program) s
      (fun r _ ↦ Eval.endsBlock r = false) fun _ _ ↦ False := by
    decide +kernel
  have hjoined : (Parsed.ofSource (bound ++ "\n" ++ used)).errors = [] :=
    List.isEmpty_iff.mp (by decide +kernel)
  have hvalue : Ensures
      (Eval.block Builtin.table 12 ⟨0⟩ (Parsed.ofSource (bound ++ "\n" ++ used)).program) s
      (fun r _ ↦ r.any (Value.sameAs (.int 2)) = true) fun _ _ ↦ False := by
    decide +kernel
  have hstop : Ensures (Eval.block Builtin.table 9 ⟨0⟩ (Parsed.ofSource "return 5;").program) s
      (fun r _ ↦ Eval.endsBlock r = true) fun _ _ ↦ False := by
    decide +kernel
  have hreturns : StopsEarly "return 5;" ⟨0⟩ s :=
    ⟨9, hstop.imp (fun _ _ h ↦ h) fun _ _ h ↦ h.elim⟩
  refine ⟨?_, ?_⟩
  · cases hb : Eval.block Builtin.table 9 ⟨0⟩ (Parsed.ofSource bound).program s with
    | error e t => exact (hrun.of_error hb).elim
    | ok r t =>
      have hr : Eval.endsBlock r = false := hrun.of_ok hb
      have hfirst : Finishes bound ⟨0⟩ s (r.map Value.result) t :=
        ⟨9, by rw [evaluate_eq_ofBlock hbound, hb]; rfl⟩
      obtain ⟨u, hu⟩ : ∃ u, Finishes (bound ++ "\n" ++ used) ⟨0⟩ s (some (.int 2)) u := by
        cases hv : Eval.block Builtin.table 12 ⟨0⟩
            (Parsed.ofSource (bound ++ "\n" ++ used)).program s with
        | error e u => exact (hvalue.of_error hv).elim
        | ok r u =>
          obtain ⟨v, rfl, hsame⟩ := (Option.any_eq_true _ _).mp (hvalue.of_ok hv)
          obtain rfl := Value.int_sameAs_iff.mp hsame
          exact ⟨u, 12, by rw [evaluate_eq_ofBlock hjoined, hv]; rfl⟩
      have hlines := (evaluate_append_newline hbound hends used).2 hused ⟨0⟩ s
      obtain ⟨u', hu', -⟩ := (hlines.1 _ t hfirst (not_stopsEarly hb hr) hnil _ _).mp ⟨u, hu, rfl⟩
      exact ⟨_, t, hfirst, not_stopsEarly hb hr, u', hu'⟩
  · exact ⟨hreturns, ((evaluate_append_newline hreturn hends' used).2 hused ⟨0⟩ s).2 hreturns⟩

end Treewalk
