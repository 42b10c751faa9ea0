import Treewalk.Proofs.Grammar.Relations
import Treewalk.Proofs.Outcome

/-!
# Reading moves forward

However a reader ends, what it leaves is an end of what was there (`Advances`), and a statement that
cannot be read takes at least one token, just as one that can (`Takes`). So reading a text statement
by statement comes to its end, and a larger bound on the number of statements changes nothing
(`Parsed.ofCursor_eq_of_le`).
-/

set_option autoImplicit false
set_option relaxedAutoImplicit false

namespace Treewalk

variable {α β : Type}

/-- The reader leaves an end of the tokens, whether it gives a result or fails. -/
def Advances (m : Parser α) : Prop :=
  ∀ c : Cursor, (after m c).rest <:+ c.rest

/-- The reader leaves an end of the tokens behind the next one, unless its depth is used up. -/
def Takes (m : Parser α) : Prop :=
  ∀ c : Cursor, Ensures m c (fun _ d ↦ d.rest <:+ c.rest.tail)
    fun e d ↦ e ≠ .exhausted → d.rest <:+ c.rest.tail

theorem Advances.ensures {m : Parser α} (h : Advances m) (c : Cursor) :
    Ensures m c (fun _ d ↦ d.rest <:+ c.rest) fun _ d ↦ d.rest <:+ c.rest := by
  have hc := h c
  unfold after at hc
  unfold Ensures
  cases hm : m c with
  | ok a d =>
    rw [hm] at hc
    exact hc
  | error e d =>
    rw [hm] at hc
    exact hc

namespace Advances

variable {m m' : Parser α} {f : α → Parser β}

protected theorem pure (a : α) : Advances (pure a) :=
  fun c ↦ List.suffix_refl c.rest

protected theorem bind (hm : Advances m) (hf : ∀ a, Advances (f a)) : Advances (m >>= f) := by
  intro c
  refine Ensures.of_after (R := fun d : Cursor ↦ d.rest <:+ c.rest) ?_
  rw [ensures_bind]
  refine (hm.ensures c).imp (fun a d hd ↦ ?_) fun _ _ hd ↦ hd
  exact ((hf a).ensures d).imp (fun _ _ hr ↦ hr.trans hd) fun _ _ hr ↦ hr.trans hd

protected theorem ite {p : Prop} [Decidable p] (hm : Advances m) (hm' : Advances m') :
    Advances (if p then m else m') := by
  split
  · exact hm
  · exact hm'

end Advances

theorem advances_relation :
    Parser.Relation id id fun {α β} (_ : α → β) (m : Parser α) (_ : Parser β) ↦ Advances m where
  pure _ := .pure _
  exhausted c := List.suffix_refl c.rest
  reject _ c := List.suffix_refl c.rest
  bind hm hk := hm.bind hk
  peek c := List.suffix_refl c.rest
  take c := List.tail_suffix c.rest
  binder := by
    refine .bind (.bind (fun c ↦ List.suffix_refl c.rest) fun t ↦ ?_) fun t ↦ .pure _
    exact .ite (fun c ↦ List.tail_suffix c.rest) fun c ↦ List.suffix_refl c.rest

theorem Parser.advancesAt (depth : Nat) :
    Parser.RelatedAt id id
      (fun {α β} (_ : α → β) (m : Parser α) (_ : Parser β) ↦ Advances m) depth depth :=
  Parser.relatedAt advances_relation (Nat.le_refl depth) (.inl rfl)

/-! ### Readers that take a token -/

namespace Takes

variable {m : Parser α} {f : α → Parser β}

theorem bind (hm : Takes m) (hf : ∀ a, Advances (f a)) : Takes (m >>= f) := by
  intro c
  rw [ensures_bind]
  refine (hm c).imp (fun a d hd ↦ ?_) fun _ _ hd ↦ hd
  exact ((hf a).ensures d).imp (fun _ _ hr ↦ hr.trans hd) fun _ _ hr _ ↦ hr.trans hd

theorem exhausted : Takes (throw .exhausted : Parser α) :=
  fun _ ↦ ensures_throw.mpr fun h ↦ absurd rfl h

theorem take : Takes Parser.take :=
  fun c ↦ List.suffix_refl c.rest.tail

theorem peek_bind {f : Token → Parser β} (hf : ∀ t, Takes (f t)) : Takes (Parser.peek >>= f) :=
  fun c ↦ hf c.next c

theorem operand (depth : Nat) : Takes (Parser.operand depth) := by
  cases depth with
  | zero => exact .exhausted
  | succ depth =>
    obtain ⟨k, -, hk, -, hadvances⟩ :=
      Parser.RelatedAt.exists_operand advances_relation (Parser.advancesAt depth)
    rw [hk]
    exact take.bind hadvances

theorem expression (depth : Nat) (level : Precedence) : Takes (Parser.expression depth level) := by
  cases depth with
  | zero => exact .exhausted
  | succ depth =>
    rw [Parser.expression]
    exact (operand depth).bind fun left ↦ (Parser.advancesAt depth).operation level left

theorem bareStatement (depth : Nat) : Takes (Parser.bareStatement depth) := by
  cases depth with
  | zero => exact .exhausted
  | succ depth =>
    have h := advances_relation
    have hx := (Parser.advancesAt depth).expression .lowest
    rw [Parser.bareStatement]
    refine peek_bind fun t ↦ ?_
    split
    · refine take.bind fun _ ↦ h.binder.bind fun name ↦ (h.takeIf .lbracket).bind fun _ ↦ ?_
      refine .ite ?_ ?_
      · refine hx.bind fun key ↦ (h.expect .rbracket).bind fun _ ↦ ?_
        exact (h.expect .assign).bind fun _ ↦ hx.bind fun _ ↦ .pure _
      · exact (h.expect .assign).bind fun _ ↦ hx.bind fun _ ↦ .pure _
    · exact take.bind fun _ ↦ hx.bind fun _ ↦ .pure _
    · exact take.bind fun _ ↦ .pure _
    · exact (expression depth .lowest).bind fun _ ↦ .pure _

theorem statement (depth : Nat) : Takes (Parser.statement depth) := by
  cases depth with
  | zero => exact .exhausted
  | succ depth =>
    have h := advances_relation
    rw [Parser.statement]
    refine (bareStatement depth).bind fun s ↦ .ite (.pure s) ?_
    exact ((h.takeIf .semicolon).bind fun _ ↦ .pure ()).bind fun _ ↦ .pure s

end Takes

/-! ### Reading a whole text -/

/-- From the number of tokens on, the bound on the number of statements does not matter. -/
theorem Parsed.ofCursor_eq_of_le {m n : Nat} {c : Cursor} (hm : c.rest.length ≤ m)
    (hn : c.rest.length ≤ n) : Parsed.ofCursor m c = Parsed.ofCursor n c := by
  induction m generalizing n c with
  | zero =>
    have hc : c.rest.isEmpty = true := by simpa using hm
    cases n with
    | zero => rfl
    | succ n => simp [Parsed.ofCursor, hc]
  | succ m ih =>
    by_cases hc : c.rest.isEmpty = true
    · cases n <;> simp [Parsed.ofCursor, hc]
    · have hpos : 0 < c.rest.length := by
        rw [List.length_pos_iff]
        simpa using hc
      obtain ⟨n, rfl⟩ : ∃ k, n = k + 1 := ⟨n - 1, by omega⟩
      -- What a statement leaves is shorter, so both bounds are still large enough.
      have hrest : ∀ d : Cursor, d.rest <:+ c.rest.tail →
          Parsed.ofCursor m d = Parsed.ofCursor n d := by
        intro d hd
        have hl := hd.length_le
        rw [List.length_tail] at hl
        exact ih (by omega) (by omega)
      have hread := Takes.statement (Parser.depthFor c.rest.length) c
      rw [Parsed.ofCursor, Parsed.ofCursor, if_neg hc, if_neg hc]
      cases h : Parser.statement (Parser.depthFor c.rest.length) c with
      | ok s d => simp [hrest d (hread.of_ok h)]
      | error e d =>
        cases e with
        | rejected e => simp [hrest d (hread.of_error h (by simp))]
        | exhausted => rfl

end Treewalk
