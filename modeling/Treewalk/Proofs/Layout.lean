import Mathlib.Data.List.Forall2
import Treewalk.Proofs.Lines

/-!
# Layout and spelling

Two source texts may differ in white space and line breaks, in the quotes of their strings and in
the spelling of words and symbols with one meaning. As long as their tokens are of the same kinds in
the same order, with the same texts where a text has a meaning (`Token.Alike`), they are read as the
same statements and errors, up to places. Evaluating them from one store then comes to the same: the
same value or error, the same texts and the same output, in stores that are the same up to the
places in the bodies of functions (`evaluate_of_alike`).
-/

set_option autoImplicit false
set_option relaxedAutoImplicit false

namespace Treewalk

/-- Two tokens with the same meaning: they are of one kind and have the same text, if the text of
such tokens has a meaning. -/
def Token.Alike (t u : Token) : Prop :=
  t.kind = u.kind ∧ (t.kind.hasText = true → t.literal = u.literal)

instance (t u : Token) : Decidable (t.Alike u) :=
  inferInstanceAs (Decidable (_ ∧ _))

/-- The token without its place, and without its text if that has no meaning. -/
def Token.plain : Token → Token :=
  Token.respell (fun _ ↦ default) fun _ ↦ ""

theorem Token.Alike.plain_eq {t u : Token} (h : t.Alike u) : t.plain = u.plain := by
  obtain ⟨kind, literal, p⟩ := t
  obtain ⟨kind', literal', q⟩ := u
  obtain ⟨hkind, hliteral⟩ := h
  obtain rfl : kind = kind' := hkind
  cases htext : kind.hasText with
  | true => simpa [plain, respell, htext] using hliteral htext
  | false => simp [plain, respell, htext]

theorem Token.map_plain_eq {ts us : List Token} (h : List.Forall₂ Alike ts us) :
    ts.map plain = us.map plain := by
  induction h with
  | nil => rfl
  | cons h _ ih => rw [List.map_cons, List.map_cons, h.plain_eq, ih]

/-! ### Reading -/

section Sources

variable {first second : String}
  (h : List.Forall₂ Token.Alike (Token.ofSource first) (Token.ofSource second))

include h

/-- Texts with like tokens are read as the same statements and errors, up to places. -/
theorem Parsed.relocate_ofSource_eq :
    (Parsed.ofSource first).relocate (fun _ ↦ default) =
      (Parsed.ofSource second).relocate fun _ ↦ default := by
  let plain (source : String) : Cursor :=
    (Cursor.ofSource source).respell (fun _ ↦ default) fun _ ↦ ""
  have hread (source : String) : (Parsed.ofSource source).relocate (fun _ ↦ default) =
      Parsed.ofCursor (Token.ofSource source).length (plain source) :=
    (Parsed.ofCursor_respell _ rfl _ _).symm
  have hplain : plain first = plain second :=
    congrArg (fun ts ↦ Cursor.mk ts default) (Token.map_plain_eq h)
  rw [hread, hread, hplain, h.length_eq]

theorem Parsed.eraseList_program_eq :
    Stmt.eraseList (Parsed.ofSource first).program =
      Stmt.eraseList (Parsed.ofSource second).program := by
  have hprogram := congrArg Parsed.program (Parsed.relocate_ofSource_eq h)
  simpa only [Parsed.relocate, ← Stmt.relocateList_eq_map, Stmt.relocateList_default]
    using hprogram

theorem Parsed.relocate_errors_eq :
    (Parsed.ofSource first).errors.map (ParseError.relocate fun _ ↦ default) =
      (Parsed.ofSource second).errors.map (ParseError.relocate fun _ ↦ default) :=
  congrArg Parsed.errors (Parsed.relocate_ofSource_eq h)

end Sources

/-! ### Evaluating -/

theorem Evaluation.ofBlock_ne_rejected (x : EStateM.Result Stop Store (Option Value))
    (errors : List String) : Evaluation.ofBlock x ≠ .rejected errors := by
  cases x with
  | ok r t => exact Evaluation.noConfusion
  | error e t => cases e <;> exact Evaluation.noConfusion

/-- Evaluations of statements that are the same up to places both use up the bound or both end, with
the same value. -/
theorem Evaluation.ofBlock_of_mapOutcome_eq {x y : EStateM.Result Stop Store (Option Value)}
    (h : mapOutcome id id Store.erase x = mapOutcome id id Store.erase y) :
    Evaluation.ofBlock x = .exhausted ∧ Evaluation.ofBlock y = .exhausted ∨
    ∃ (value : Option Value) (t u : Store), Evaluation.ofBlock x = .finished value t ∧
      Evaluation.ofBlock y = .finished value u ∧ t.erase = u.erase := by
  cases hx : Evaluation.ofBlock x with
  | rejected errors => exact absurd hx (Evaluation.ofBlock_ne_rejected x errors)
  | finished value t =>
    obtain ⟨u, hy, herase⟩ := Evaluation.exists_of_mapOutcome_eq h hx
    exact .inr ⟨value, t, u, rfl, hy, herase.symm⟩
  | exhausted =>
    cases hy : Evaluation.ofBlock y with
    | rejected errors => exact absurd hy (Evaluation.ofBlock_ne_rejected y errors)
    | exhausted => exact .inl ⟨rfl, rfl⟩
    | finished value u =>
      obtain ⟨t, ht, -⟩ := Evaluation.exists_of_mapOutcome_eq h.symm hy
      rw [hx] at ht
      cases ht

/-- Texts with like tokens are read as the same statements and errors, up to places. If they have no
errors, then from one store and under one bound both use up the bound, or both end with the same
value or error, in stores that are the same up to places, in which every value shows in the same way
and the same was written. -/
theorem evaluate_of_alike {first second : String}
    (h : List.Forall₂ Token.Alike (Token.ofSource first) (Token.ofSource second)) :
    Stmt.eraseList (Parsed.ofSource first).program =
      Stmt.eraseList (Parsed.ofSource second).program ∧
    (Parsed.ofSource first).errors.map (ParseError.relocate fun _ ↦ default) =
      (Parsed.ofSource second).errors.map (ParseError.relocate fun _ ↦ default) ∧
    ((Parsed.ofSource first).errors = [] → ∀ (depth : Nat) (scope : ScopeId) (s : Store),
      evaluate depth first scope s = .exhausted ∧ evaluate depth second scope s = .exhausted ∨
      ∃ (value : Option Value) (t u : Store),
        evaluate depth first scope s = .finished value t ∧
        evaluate depth second scope s = .finished value u ∧
        t.erase = u.erase ∧
        (∀ v : Value, t.inspect? v = u.inspect? v) ∧
        ∀ id : ScopeId, t.output id = u.output id) := by
  have hprogram := Parsed.eraseList_program_eq h
  have herrors := Parsed.relocate_errors_eq h
  refine ⟨hprogram, herrors, fun hfirst depth scope s ↦ ?_⟩
  have hsecond : (Parsed.ofSource second).errors = [] := by
    rw [hfirst, List.map_nil] at herrors
    exact List.map_eq_nil_iff.mp herrors.symm
  rw [evaluate_eq_ofBlock hfirst, evaluate_eq_ofBlock hsecond]
  have hblock := Eval.block_of_eraseList_eq Builtin.table depth scope hprogram s
  refine (Evaluation.ofBlock_of_mapOutcome_eq hblock).imp_right ?_
  rintro ⟨value, t, u, ht, hu, herase⟩
  exact ⟨value, t, u, ht, hu, herase, Store.inspect?_of_erase_eq herase,
    Store.output_of_erase_eq herase⟩

/-- Whether a program ended with the value `true`. -/
def Evaluation.isTrue : Evaluation → Bool
  | .finished (some (.bool b)) _ => b
  | _ => false

/-- Other white space, quotes and spellings of a function and of a conjunction. -/
theorem evaluate_of_alike_spelled :
    let first := "let f = fn(x) \x7b x && true \x7d; f('a' == 'a')"
    let second := "let f=\n  function(x)\x7bx and true\x7d ;\nf( \"a\"==\"a\" )"
    let s := Store.empty.openGlobal.2
    List.Forall₂ Token.Alike (Token.ofSource first) (Token.ofSource second) ∧
    ∃ t u : Store,
      evaluate 20 first ⟨0⟩ s = .finished (some (.bool true)) t ∧
      evaluate 20 second ⟨0⟩ s = .finished (some (.bool true)) u ∧
      t.erase = u.erase := by
  intro first second s
  have halike : List.Forall₂ Token.Alike (Token.ofSource first) (Token.ofSource second) := by
    decide +kernel
  have herrors : (Parsed.ofSource first).errors = [] := List.isEmpty_iff.mp (by decide +kernel)
  have hvalue : (evaluate 20 first ⟨0⟩ s).isTrue = true := by decide +kernel
  rcases (evaluate_of_alike halike).2.2 herrors 20 ⟨0⟩ s with
    ⟨hfirst, -⟩ | ⟨value, t, u, hfirst, hsecond, herase, -⟩
  · simp [hfirst, Evaluation.isTrue] at hvalue
  · rw [hfirst] at hvalue
    unfold Evaluation.isTrue at hvalue
    split at hvalue
    next b t' heq =>
      obtain ⟨rfl, -⟩ := Evaluation.finished.inj heq
      rw [hvalue] at hfirst hsecond
      exact ⟨halike, t, u, hfirst, hsecond, herase⟩
    next => cases hvalue

end Treewalk
