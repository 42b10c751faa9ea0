import Treewalk.Proofs.Grammar.Acceptance
import Treewalk.Proofs.Grammar.Progress

/-!
# Reading comes to an end

Readers take a bound on their depth, and reading a text takes one on the number of statements.
Neither is a rule of the language. A bound on the depth that is not used up does not matter
(`Parser.statement_of_le`), so what a statement gives can be said without it (`Cursor.Gives`), and
so can a whole run (`Cursor.ReadsTo`), which is finite because it is built up from its end. Every
text has such a run, and it is the one that `Parsed.ofSource` makes (`Cursor.readsTo_ofSource`).
-/

set_option autoImplicit false
set_option relaxedAutoImplicit false

namespace Treewalk

/-! ### The bound on the depth -/

/-- The reader `n` gives what `m` gives, changed by `f`, unless the depth of `m` is used up. -/
def Outreaches {α β : Type} (f : α → β) (m : Parser α) (n : Parser β) : Prop :=
  ∀ c : Cursor, (∃ d, m c = .error .exhausted d) ∨ n c = mapOutcome f id id (m c)

theorem ParseError.relocate_id (e : ParseError) : e.relocate id = e := by
  cases e <;> rfl

theorem Token.respell_id (t : Token) : t.respell id id = t := by
  simp [respell]

theorem Outreaches.refl {α : Type} {f : α → α} (hf : ∀ a, f a = a) (m : Parser α) :
    Outreaches f m m := by
  intro c
  right
  cases m c with
  | ok a d => simp [mapOutcome, hf]
  | error e d => rfl

/-- A reader whose depth is used up goes no further. -/
theorem outreaches_relation : Parser.Relation id id Outreaches where
  pure h c := by
    rw [run_pure, ← h]
    exact .inr rfl
  exhausted c := .inl ⟨c, rfl⟩
  reject h c := by
    rw [← h, ParseError.relocate_id]
    exact .inr rfl
  bind := by
    intro α β γ δ f f' m n k l hm hk c
    rw [run_bind, run_bind]
    rcases hm c with ⟨d, hd⟩ | hc
    · exact .inl ⟨d, by rw [hd]⟩
    · rw [hc]
      cases m c with
      | ok a d => exact hk a d
      | error e d => exact .inr rfl
  peek := .refl Token.respell_id _
  take := .refl Token.respell_id _
  binder := .refl (fun _ ↦ rfl) _

theorem exhaustedLeast_outreaches : Parser.ExhaustedLeast Outreaches :=
  fun _ c ↦ .inl ⟨c, rfl⟩

/-- From a bound on that is not used up, the bound on the depth does not matter. -/
theorem Parser.statement_of_le {depth depth' : Nat} {c : Cursor} (hle : depth ≤ depth')
    (h : ∀ d, Parser.statement depth c ≠ .error .exhausted d) :
    Parser.statement depth' c = Parser.statement depth c := by
  have hrelated := Parser.relatedAt outreaches_relation hle (.inr exhaustedLeast_outreaches)
  rcases hrelated.statement c with ⟨d, hd⟩ | hsame
  · exact absurd hd (h d)
  · rw [hsame]
    cases Parser.statement depth c with
    | ok s d => simp [mapOutcome, s.relocate_id]
    | error e d => rfl

/-! ### Runs -/

/-- At the cursor, reading a statement has this outcome under every bound on the depth that is large
enough. -/
def Cursor.Gives (c : Cursor) (outcome : EStateM.Result Failure Cursor Stmt) : Prop :=
  ∃ depth, ∀ depth', depth ≤ depth' → Parser.statement depth' c = outcome

/-- Reading statement by statement comes from the cursor to the end of the text, with these
statements and errors. -/
inductive Cursor.ReadsTo : Cursor → Parsed → Prop
  | finished {f : Position} : ReadsTo ⟨[], f⟩ ⟨[], []⟩
  | statement {c d : Cursor} {s : Stmt} {parsed : Parsed} (hc : c.rest ≠ [])
      (hs : c.Gives (.ok s d)) (h : ReadsTo d parsed) :
      ReadsTo c ⟨s :: parsed.program, parsed.errors⟩
  | failure {c d : Cursor} {e : ParseError} {parsed : Parsed} (hc : c.rest ≠ [])
      (he : c.Gives (.error (.rejected e) d)) (h : ReadsTo d parsed) :
      ReadsTo c ⟨parsed.program, e :: parsed.errors⟩

/-- The depth that readers get is never used up. -/
theorem Parser.statement_ne_exhausted (c d : Cursor) :
    Parser.statement (Parser.depthFor c.rest.length) c ≠ .error .exhausted d := by
  intro h
  have hread := Phrase.sound_read (Parser.depthFor c.rest.length) .statement trivial c.rest c.finish
  have hlt := hread.of_error h rfl
  exact absurd (Phrase.depthFor_statement_le c.rest) (Nat.not_le.mpr hlt)

theorem Cursor.gives_statement (c : Cursor) :
    c.Gives (Parser.statement (Parser.depthFor c.rest.length) c) :=
  ⟨_, fun _ hle ↦ Parser.statement_of_le hle (Parser.statement_ne_exhausted c)⟩

/-- With a bound on the number of statements that is at least the number of tokens, reading is a
run. -/
theorem Cursor.readsTo_ofCursor {count : Nat} {c : Cursor} (hc : c.rest.length ≤ count) :
    c.ReadsTo (Parsed.ofCursor count c) := by
  induction count generalizing c with
  | zero =>
    obtain ⟨rest, finish⟩ := c
    obtain rfl : rest = [] := List.length_eq_zero_iff.mp (Nat.le_zero.mp hc)
    exact .finished
  | succ count ih =>
    obtain ⟨rest, finish⟩ := c
    cases rest with
    | nil => exact .finished
    | cons t rest =>
      have hne : (⟨t :: rest, finish⟩ : Cursor).rest ≠ [] := List.cons_ne_nil t rest
      have hgives := Cursor.gives_statement ⟨t :: rest, finish⟩
      have htakes := Takes.statement (Parser.depthFor (t :: rest).length) ⟨t :: rest, finish⟩
      -- Whatever the outcome, fewer tokens are left.
      have hless : ∀ d : Cursor, d.rest <:+ rest → d.rest.length ≤ count := fun d hd ↦
        Nat.le_trans hd.length_le (Nat.le_of_succ_le_succ hc)
      rw [Parsed.ofCursor]
      simp only [List.isEmpty_cons, Bool.false_eq_true, ↓reduceIte]
      cases hs : Parser.statement (Parser.depthFor (t :: rest).length) ⟨t :: rest, finish⟩ with
      | ok s d =>
        rw [hs] at hgives
        exact .statement hne hgives (ih (hless d (htakes.of_ok hs)))
      | error e d =>
        rw [hs] at hgives
        cases e with
        | rejected e => exact .failure hne hgives (ih (hless d (htakes.of_error hs (by simp))))
        | exhausted => exact absurd hs (Parser.statement_ne_exhausted ⟨t :: rest, finish⟩ d)

theorem Cursor.readsTo_ofSource (source : String) :
    (Cursor.ofSource source).ReadsTo (Parsed.ofSource source) :=
  Cursor.readsTo_ofCursor (Nat.le_refl _)

end Treewalk
