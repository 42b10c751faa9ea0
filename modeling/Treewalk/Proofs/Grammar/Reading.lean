import Treewalk.Proofs.Grammar.Derivation
import Treewalk.Proofs.Outcome

/-!
# Readers follow the grammar

What a reader gives is derived by the grammar, and a reader whose depth is large enough for the
tokens that are left never runs out of it (`Phrase.sound_read`).
-/

set_option autoImplicit false
set_option relaxedAutoImplicit false

namespace Treewalk

/-! ### How much a phrase covers -/

/-- A number of tokens that the phrase is sure to cover. -/
def Phrase.least : Phrase → Nat
  | operation _ _ | extension _ _ => 0
  | _ => 1

theorem Reads.length_add_least_le {p : Phrase} {ts ts' : List Token} {r : p.Result}
    (h : Reads p ts r ts') : ts'.length + p.least ≤ ts.length := by
  induction h <;> simp only [Phrase.least, List.length_cons] at * <;> omega

theorem Reads.length_le {p : Phrase} {ts ts' : List Token} {r : p.Result} (h : Reads p ts r ts') :
    ts'.length ≤ ts.length :=
  Nat.le_trans (Nat.le_add_right _ _) h.length_add_least_le

theorem Reads.length_lt {p : Phrase} {ts ts' : List Token} {r : p.Result} (h : Reads p ts r ts')
    (hp : p.least = 1) : ts'.length < ts.length := by
  have := h.length_add_least_le
  omega

/-! ### Readers of one token -/

section Tokens

variable {ts : List Token} {f : Position} {N : Prop}

theorem ensures_peek {Q : Token → Cursor → Prop} {E : Failure → Cursor → Prop} {c : Cursor} :
    Ensures Parser.peek c Q E ↔ Q c.next c :=
  Iff.rfl

theorem ensures_take {Q : Token → Cursor → Prop} {E : Failure → Cursor → Prop} {c : Cursor} :
    Ensures Parser.take c Q E ↔ Q c.next c.advance :=
  Iff.rfl

theorem ensures_expect {Q : Token → Cursor → Prop} {k : Kind} (hk : k ≠ .eof)
    (h : ∀ t ts', ts = t :: ts' → t.kind = k → Q t ⟨ts', f⟩) :
    Ensures (Parser.expect k) ⟨ts, f⟩ Q fun e _ ↦ e = .exhausted → N := by
  simp only [Parser.expect, Parser.reject, ensures_bind, ensures_peek, ensures_ite, ensures_take,
    ensures_throw]
  cases ts with
  | nil => simp [Cursor.next, Token.finish, Ne.symm hk]
  | cons t ts => exact ⟨h t ts rfl, by simp⟩

theorem ensures_takeIf {Q : Bool → Cursor → Prop} {E : Failure → Cursor → Prop} {k : Kind}
    (hk : k ≠ .eof) (ht : ∀ t ts', ts = t :: ts' → t.kind = k → Q true ⟨ts', f⟩)
    (hf : nextKind ts ≠ k → Q false ⟨ts, f⟩) :
    Ensures (Parser.takeIf k) ⟨ts, f⟩ Q E := by
  simp only [Parser.takeIf, Parser.peekIs, ensures_bind, ensures_peek, ensures_pure, ensures_ite,
    ensures_take, decide_eq_true_eq]
  cases ts with
  | nil => simpa [Cursor.next, Token.finish, Ne.symm hk] using hf (by simpa using Ne.symm hk)
  | cons t ts => exact ⟨ht t ts rfl, hf⟩

end Tokens

/-! ### Readers of phrases -/

/-- The tokens that go on with an expression. -/
theorem Precedence.goesOn (k : Kind) (hk : Precedence.lowest < Precedence.of k) :
    k = .lparen ∨ k = .lbracket ∨ k = .increment ∨ k = .decrement ∨ k = .range ∨
      k = .exclusiveRange ∨ (BinaryOperator.ofKind? k).isSome := by
  revert hk
  cases k <;> decide

namespace Phrase

/-- The reader of a phrase. -/
@[reducible] def read : (p : Phrase) → Nat → Parser p.Result
  | parameters, depth => Parser.parameters depth
  | moreParameters, depth => Parser.moreParameters depth
  | expression level, depth => Parser.expression depth level
  | operand, depth => Parser.operand depth
  | operation level left, depth => Parser.operation depth level left
  | extension t left, depth => Parser.extension depth t left
  | subscript position target, depth => Parser.subscript depth position target
  | sliceEnd, depth => Parser.sliceEnd depth
  | conditional position, depth => Parser.conditional depth position
  | forLoop position, depth => Parser.forLoop depth position
  | expressions closing, depth => Parser.expressions depth closing
  | moreExpressions closing, depth => Parser.moreExpressions depth closing
  | pairs, depth => Parser.pairs depth
  | block, depth => Parser.block depth
  | statements, depth => Parser.statements depth
  | statement, depth => Parser.statement depth
  | bareStatement, depth => Parser.bareStatement depth

/-- The phrases that occur: a token that goes on with an expression binds more tightly than the
lowest level, and a list of expressions ends in a bracket. -/
def Proper : Phrase → Prop
  | extension t _ => .lowest < Precedence.of t.kind
  | expressions closing | moreExpressions closing => closing = .rparen ∨ closing = .rbracket
  | _ => True

/-- How many readers may follow each other from this phrase on without taking a token. -/
def rank : Phrase → Nat
  | parameters | moreParameters | operand | operation _ _ | forLoop _ | moreExpressions _
  | block => 1
  | expression _ => 2
  | subscript _ _ | sliceEnd | conditional _ | expressions _ | pairs | bareStatement => 3
  | extension _ _ | statement => 4
  | statements => 5

theorem rank_le (p : Phrase) : p.rank ≤ 5 := by
  cases p <;> simp [rank]

theorem rank_pos (p : Phrase) : 0 < p.rank := by
  cases p <;> simp [rank]

/-- A depth at which no reader of the phrase runs out of depth. -/
def depthFor (p : Phrase) (ts : List Token) : Nat :=
  p.rank + 8 * ts.length

/-- A reader that starts after at least one more token has depth enough left. -/
theorem depthFor_succ_le {p q : Phrase} {ts ts' : List Token} (h : ts'.length < ts.length) :
    q.depthFor ts' + 1 ≤ p.depthFor ts := by
  have hq := q.rank_le
  have hp := p.rank_pos
  simp only [depthFor]
  omega

/-- A reader that starts at the same token has depth enough left if its rank is lower. -/
theorem depthFor_succ_le_of_rank {p q : Phrase} {ts : List Token} (h : q.rank < p.rank) :
    q.depthFor ts + 1 ≤ p.depthFor ts := by
  simp only [depthFor]
  omega

/-- At this depth, what the reader of a phrase gives is derived by the grammar, and the depth is
used up only where it is below `depthFor`. -/
def Sound (p : Phrase) (depth : Nat) : Prop :=
  ∀ (ts : List Token) (f : Position),
    Ensures (p.read depth) ⟨ts, f⟩ (fun r c ↦ c.finish = f ∧ Reads p ts r c.rest)
      fun e _ ↦ e = .exhausted → depth < p.depthFor ts

/-- How a sound reader is used inside another one, which needs more depth. -/
theorem Sound.ensures {p : Phrase} {depth : Nat} (h : p.Sound depth) {ts : List Token}
    {f : Position} {Q : p.Result → Cursor → Prop} {bound : Nat} (hb : p.depthFor ts + 1 ≤ bound)
    (hQ : ∀ r ts', Reads p ts r ts' → Q r ⟨ts', f⟩) :
    Ensures (p.read depth) ⟨ts, f⟩ Q fun e _ ↦ e = .exhausted → depth + 1 < bound := by
  refine (h ts f).imp (fun r c hr ↦ ?_) fun e c he hx ↦ ?_
  · obtain ⟨rfl, hr⟩ := hr
    exact hQ r c.rest hr
  · have := he hx
    omega

theorem sound_moreParameters (depth : Nat) : moreParameters.Sound depth := by
  induction depth with
  | zero =>
    intro ts f _
    exact Nat.add_pos_left (rank_pos _) _
  | succ depth ih =>
    intro ts f
    simp only [read, Parser.moreParameters, Parser.binder, ensures_bind, ensures_ite, ensures_pure]
    refine ensures_takeIf (by decide) ?_ ?_
    · rintro t ts rfl ht
      refine ⟨fun _ ↦ ensures_expect (by decide) ?_, by simp⟩
      rintro u ts rfl hu
      refine ih.ensures (depthFor_succ_le (by simp only [List.length_cons]; omega)) ?_
      exact fun names ts' hs ↦ ⟨rfl, .nextParameter ht hu hs⟩
    · intro _
      refine ⟨by simp, fun _ ↦ ensures_expect (by decide) ?_⟩
      rintro t ts rfl ht
      exact ⟨rfl, .lastParameter ht⟩

theorem sound_parameters (depth : Nat) : parameters.Sound depth := by
  intro ts f
  simp only [read, Parser.parameters, Parser.binder, ensures_bind, ensures_ite, ensures_pure]
  refine ensures_takeIf (by decide) ?_ ?_
  · rintro t ts rfl ht
    exact ⟨fun _ ↦ ⟨rfl, .noParameter ht⟩, by simp⟩
  · intro _
    refine ⟨by simp, fun _ ↦ ensures_expect (by decide) ?_⟩
    rintro t ts rfl ht
    -- the parameters after the first are read at the same depth
    refine (sound_moreParameters depth ts f).imp (fun names c hs ↦ ?_) fun e c he hx ↦ ?_
    · exact ⟨hs.1, .parameter ht hs.2⟩
    · exact Nat.lt_of_lt_of_le (Nat.lt_succ_of_lt (he hx)) (depthFor_succ_le (by simp))

/-! ### The readers of expressions and statements, each over those one level below -/

section Step

variable {depth : Nat} (ih : ∀ p : Phrase, p.Proper → p.Sound depth)

include ih

theorem sound_expression (level : Precedence) : (expression level).Sound (depth + 1) := by
  intro ts f
  simp only [read, Parser.expression, ensures_bind]
  exact (ih operand trivial).ensures (depthFor_succ_le_of_rank (by simp [rank])) fun left ts₁ hl ↦
    (ih (operation level left) trivial).ensures (depthFor_succ_le (hl.length_lt rfl))
      fun e ts' he ↦ ⟨rfl, .expression hl he⟩

theorem sound_operand : operand.Sound (depth + 1) := by
  intro ts f
  simp only [read, Parser.operand, ensures_bind, ensures_take]
  cases ts with
  | nil => simp [Cursor.next, Token.finish, Parser.reject]
  | cons t ts =>
    have hs : ∀ {p : Phrase}, p.depthFor ts + 1 ≤ operand.depthFor (t :: ts) :=
      depthFor_succ_le (by simp)
    have hx : ∀ (level : Precedence) {Q : Expr → Cursor → Prop},
        (∀ e ts', Reads (expression level) ts e ts' → Q e ⟨ts', f⟩) →
        Ensures (Parser.expression depth level) ⟨ts, f⟩ Q
          fun e _ ↦ e = .exhausted → depth + 1 < operand.depthFor (t :: ts) :=
      fun level ↦ (ih (expression level) trivial).ensures hs
    simp only [Cursor.next, Cursor.advance, List.headD_cons, List.tail_cons]
    split <;> rename_i ht
    · exact ⟨rfl, .name ht⟩
    · unfold Parser.integer
      split
      · exact ⟨rfl, .int ht ‹_›⟩
      · simp [Parser.reject]
    · unfold Parser.float
      split
      · exact ⟨rfl, .float ht ‹_›⟩
      · simp [Parser.reject]
    · exact ⟨rfl, .str ht⟩
    · exact ⟨rfl, .bool ht⟩
    · exact ⟨rfl, .bool ht⟩
    · exact ensures_bind.mpr (hx _ fun e ts' he ↦ ⟨rfl, .unary (by rw [ht]; rfl) he⟩)
    · exact ensures_bind.mpr (hx _ fun e ts' he ↦ ⟨rfl, .unary (by rw [ht]; rfl) he⟩)
    · exact ensures_bind.mpr (hx _ fun e ts' he ↦ ⟨rfl, .unary (by rw [ht]; rfl) he⟩)
    · exact ensures_bind.mpr (hx _ fun e ts' he ↦ ⟨rfl, .stepBefore (by rw [ht]; rfl) he⟩)
    · exact ensures_bind.mpr (hx _ fun e ts' he ↦ ⟨rfl, .stepBefore (by rw [ht]; rfl) he⟩)
    · refine ensures_bind.mpr (hx _ fun e ts' he ↦ ensures_bind.mpr ?_)
      refine ensures_expect (by decide) ?_
      rintro u ts' rfl hu
      exact ⟨rfl, .group ht he hu⟩
    · exact (ih (conditional t.position) trivial).ensures hs
        fun e ts' he ↦ ⟨rfl, .ifOperand ht he⟩
    · refine ensures_bind.mpr (ensures_expect (by decide) ?_)
      rintro u ts rfl hu
      refine ensures_bind.mpr ((ih parameters trivial).ensures (depthFor_succ_le ?_)
        fun names ts₁ hn ↦ ensures_bind.mpr ((ih block trivial).ensures (depthFor_succ_le ?_)
          fun b ts' hb ↦ ⟨rfl, .function ht hu hn hb⟩))
      · simp only [List.length_cons]
        omega
      · have hl := hn.length_lt rfl
        simp only [List.length_cons]
        omega
    · exact ensures_bind.mpr (hx _ fun c ts₁ hc ↦ ensures_bind.mpr
        ((ih block trivial).ensures (depthFor_succ_le (Nat.lt_succ_of_le hc.length_le))
          fun b ts' hb ↦ ⟨rfl, .whileLoop ht hc hb⟩))
    · exact (ih (forLoop t.position) trivial).ensures hs
        fun e ts' he ↦ ⟨rfl, .forOperand ht he⟩
    · exact ensures_bind.mpr ((ih (expressions .rbracket) (.inr rfl)).ensures hs
        fun es ts' he ↦ ⟨rfl, .array ht he⟩)
    · exact ensures_bind.mpr ((ih pairs trivial).ensures hs
        fun ps ts' hp ↦ ⟨rfl, .hash ht hp⟩)
    · simp [Parser.reject]

theorem sound_operation (level : Precedence) (left : Expr) :
    (operation level left).Sound (depth + 1) := by
  intro ts f
  simp only [read, Parser.operation, ensures_bind, ensures_peek, ensures_ite, ensures_take,
    ensures_pure, true_and]
  cases ts with
  | nil => exact ⟨fun ht ↦ absurd ht (Nat.not_lt_zero _), fun hs ↦ .stop hs⟩
  | cons t ts =>
    refine ⟨fun ht ↦ ?_, fun hs ↦ .stop hs⟩
    simp only [Cursor.next, Cursor.advance, List.headD_cons, List.tail_cons] at ht ⊢
    have hp : (extension t left).Proper := Nat.lt_of_le_of_lt (Nat.zero_le _) ht
    exact (ih (extension t left) hp).ensures (depthFor_succ_le (by simp)) fun e ts₁ he ↦
      (ih (operation level e) trivial).ensures (depthFor_succ_le (Nat.lt_succ_of_le he.length_le))
        fun r ts' hr ↦ ⟨rfl, .goOn ht he hr⟩

theorem sound_extension (t : Token) (left : Expr) (ht : (extension t left).Proper) :
    (extension t left).Sound (depth + 1) := by
  intro ts f
  have hx : ∀ (level : Precedence) {Q : Expr → Cursor → Prop},
      (∀ e ts', Reads (expression level) ts e ts' → Q e ⟨ts', f⟩) →
      Ensures (Parser.expression depth level) ⟨ts, f⟩ Q
        fun e _ ↦ e = .exhausted → depth + 1 < (extension t left).depthFor ts :=
    fun level ↦ (ih (expression level) trivial).ensures
      (depthFor_succ_le_of_rank (by simp [rank]))
  simp only [read, Parser.extension]
  split <;> rename_i hk
  · exact ensures_bind.mpr ((ih (expressions .rparen) (.inl rfl)).ensures
      (depthFor_succ_le_of_rank (by simp [rank])) fun es ts' he ↦ ⟨rfl, .call hk he⟩)
  · exact (ih (subscript t.position left) trivial).ensures
      (depthFor_succ_le_of_rank (by simp [rank])) fun e ts' he ↦ ⟨rfl, .element hk he⟩
  · exact ⟨rfl, .stepAfter (by rw [hk]; rfl)⟩
  · exact ⟨rfl, .stepAfter (by rw [hk]; rfl)⟩
  · exact ensures_bind.mpr (hx _ fun e ts' he ↦ ⟨rfl, .range (by rw [hk]; rfl) he⟩)
  · exact ensures_bind.mpr (hx _ fun e ts' he ↦ ⟨rfl, .range (by rw [hk]; rfl) he⟩)
  · split
    · next operator ho => exact ensures_bind.mpr (hx _ fun e ts' he ↦ ⟨rfl, .binary ho he⟩)
    · next ho =>
      -- a token that goes on with an expression and is none of the above is a binary operator
      have := Precedence.goesOn t.kind ht
      simp_all

theorem sound_subscript (position : Position) (target : Expr) :
    (subscript position target).Sound (depth + 1) := by
  intro ts f
  simp only [read, Parser.subscript, ensures_bind, ensures_ite, ensures_pure]
  refine ensures_takeIf (by decide) ?_ ?_
  · rintro t ts rfl ht
    exact ⟨fun _ ↦ (ih sliceEnd trivial).ensures (depthFor_succ_le (by simp))
      fun stop ts' hs ↦ ⟨rfl, .sliceFromStart ht hs⟩, by simp⟩
  · intro _
    refine ⟨by simp, fun _ ↦ (ih (expression .lowest) trivial).ensures
      (depthFor_succ_le_of_rank (by simp [rank])) fun first ts₁ hf ↦
        ensures_takeIf (by decide) ?_ ?_⟩
    · rintro t ts₁ rfl ht
      have hl := hf.length_le
      exact ⟨fun _ ↦ (ih sliceEnd trivial).ensures (depthFor_succ_le hl)
        fun stop ts' hs ↦ ⟨rfl, .slice hf ht hs⟩, by simp⟩
    · intro _
      refine ⟨by simp, fun _ ↦ ensures_expect (by decide) ?_⟩
      rintro t ts' rfl ht
      exact ⟨rfl, .index hf ht⟩

theorem sound_sliceEnd : sliceEnd.Sound (depth + 1) := by
  intro ts f
  simp only [read, Parser.sliceEnd, ensures_bind, ensures_ite, ensures_pure]
  refine ensures_takeIf (by decide) ?_ ?_
  · rintro t ts rfl ht
    exact ⟨fun _ ↦ ⟨rfl, .noSliceEnd ht⟩, by simp⟩
  · intro _
    refine ⟨by simp, fun _ ↦ (ih (expression .lowest) trivial).ensures
      (depthFor_succ_le_of_rank (by simp [rank])) fun e ts₁ he ↦ ensures_expect (by decide) ?_⟩
    rintro t ts' rfl ht
    exact ⟨rfl, .sliceEnd he ht⟩

theorem sound_conditional (position : Position) : (conditional position).Sound (depth + 1) := by
  intro ts f
  simp only [read, Parser.conditional, ensures_bind, ensures_ite, ensures_pure]
  refine (ih (expression .lowest) trivial).ensures (depthFor_succ_le_of_rank (by simp [rank]))
    fun c ts₁ hc ↦ (ih block trivial).ensures (depthFor_succ_le (hc.length_lt rfl))
      fun b ts₂ hb ↦ ensures_takeIf (by decide) ?_ fun hn ↦
        ⟨by simp, fun _ ↦ ⟨rfl, .onlyIf hc hb hn⟩⟩
  rintro t ts₂ rfl ht
  have hl : ts₂.length < ts.length := Nat.le_trans (Nat.le_of_lt (hb.length_lt rfl)) hc.length_le
  refine ⟨fun _ ↦ ⟨fun hu ↦ ?_, fun _ ↦ ?_⟩, by simp⟩
  · cases ts₂ with
    | nil => simp [Cursor.next, Token.finish] at hu
    | cons u ts₂ =>
      exact (ih (conditional u.position) trivial).ensures
        (depthFor_succ_le (Nat.lt_trans (Nat.lt_succ_self _) hl)) fun e ts' he ↦
          ⟨rfl, .elseIf hc hb ht hu he⟩
  · exact (ih block trivial).ensures (depthFor_succ_le hl) fun d ts' hd ↦
      ⟨rfl, .orElse hc hb ht hd⟩

theorem sound_forLoop (position : Position) : (forLoop position).Sound (depth + 1) := by
  intro ts f
  simp only [read, Parser.forLoop, ensures_bind]
  refine ensures_expect (by decide) ?_
  rintro t ts rfl ht
  refine (ih bareStatement trivial).ensures (depthFor_succ_le (by simp)) fun s ts₁ hs ↦ ?_
  simp only [ensures_peek, ensures_ite, ensures_bind, ensures_take, Parser.reject, ensures_throw]
  refine ⟨fun hu ↦ ?_, by simp⟩
  cases ts₁ with
  | nil => simp [Cursor.next, Token.finish] at hu
  | cons u ts₁ =>
    simp only [Cursor.next, Cursor.advance, List.headD_cons, List.tail_cons, Bool.and_eq_true,
      Bool.not_eq_true'] at hu ⊢
    have h₁ : ts₁.length < (t :: ts).length := Nat.le_succ_of_le hs.length_le
    refine (ih (expression .lowest) trivial).ensures (depthFor_succ_le h₁) fun c ts₂ hc ↦
      ensures_expect (by decide) ?_
    rintro v ts₂ rfl hv
    have h₂ : ts₂.length < (t :: ts).length := Nat.le_trans hc.length_le (Nat.le_of_lt h₁)
    refine (ih statement trivial).ensures (depthFor_succ_le h₂) fun a ts₃ ha ↦
      ensures_expect (by decide) ?_
    rintro w ts₃ rfl hw
    have h₃ : ts₃.length < (t :: ts).length := Nat.le_trans ha.length_le (Nat.le_of_lt h₂)
    exact (ih block trivial).ensures (depthFor_succ_le h₃) fun b ts' hb ↦
      ⟨rfl, .forLoop ht hs (of_decide_eq_true hu.1) hu.2 hc hv ha hw hb⟩

theorem sound_expressions (closing : Kind) (hk : (expressions closing).Proper) :
    (expressions closing).Sound (depth + 1) := by
  have hn : closing ≠ .eof := by rcases hk with rfl | rfl <;> decide
  intro ts f
  simp only [read, Parser.expressions, ensures_bind, ensures_ite, ensures_pure]
  refine ensures_takeIf hn ?_ ?_
  · rintro t ts rfl ht
    exact ⟨fun _ ↦ ⟨rfl, .noExpression ht⟩, by simp⟩
  · intro _
    exact ⟨by simp, fun _ ↦ (ih (expression .lowest) trivial).ensures
      (depthFor_succ_le_of_rank (by simp [rank])) fun e ts₁ he ↦
        (ih (moreExpressions closing) hk).ensures (depthFor_succ_le (he.length_lt rfl))
          fun es ts' hs ↦ ⟨rfl, .firstExpression he hs⟩⟩

theorem sound_moreExpressions (closing : Kind) (hk : (moreExpressions closing).Proper) :
    (moreExpressions closing).Sound (depth + 1) := by
  have hn : closing ≠ .eof := by rcases hk with rfl | rfl <;> decide
  intro ts f
  simp only [read, Parser.moreExpressions, ensures_bind, ensures_ite, ensures_pure]
  refine ensures_takeIf (by decide) ?_ ?_
  · rintro t ts rfl ht
    exact ⟨fun _ ↦ (ih (expression .lowest) trivial).ensures (depthFor_succ_le (by simp))
      fun e ts₁ he ↦ (ih (moreExpressions closing) hk).ensures
        (depthFor_succ_le (Nat.lt_succ_of_le he.length_le))
          fun es ts' hs ↦ ⟨rfl, .nextExpression ht he hs⟩, by simp⟩
  · intro _
    refine ⟨by simp, fun _ ↦ ensures_expect hn ?_⟩
    rintro t ts' rfl ht
    exact ⟨rfl, .lastExpression ht⟩

theorem sound_pairs : pairs.Sound (depth + 1) := by
  intro ts f
  simp only [read, Parser.pairs, ensures_bind, ensures_ite, ensures_pure]
  refine ensures_takeIf (by decide) ?_ ?_
  · rintro t ts rfl ht
    exact ⟨fun _ ↦ ⟨rfl, .noPair ht⟩, by simp⟩
  intro _
  refine ⟨by simp, fun _ ↦ (ih (expression .lowest) trivial).ensures
    (depthFor_succ_le_of_rank (by simp [rank])) fun k ts₁ hk ↦ ensures_expect (by decide) ?_⟩
  rintro t ts₁ rfl ht
  refine (ih (expression .lowest) trivial).ensures (depthFor_succ_le hk.length_le)
    fun v ts₂ hv ↦ ensures_takeIf (by decide) ?_ ?_
  · rintro u ts' rfl hu
    exact ⟨fun _ ↦ ⟨rfl, .lastPair hk ht hv hu⟩, by simp⟩
  · intro _
    refine ⟨by simp, fun _ ↦ ensures_expect (by decide) ?_⟩
    rintro u ts₂ rfl hu
    have hl : ts₂.length < ts.length := Nat.le_trans hv.length_le (Nat.le_of_lt hk.length_le)
    exact (ih pairs trivial).ensures (depthFor_succ_le hl) fun ps ts' hp ↦
      ⟨rfl, .nextPair hk ht hv hu hp⟩

theorem sound_block : block.Sound (depth + 1) := by
  intro ts f
  simp only [read, Parser.block, ensures_bind, ensures_pure]
  refine ensures_expect (by decide) ?_
  rintro t ts rfl ht
  exact (ih statements trivial).ensures (depthFor_succ_le (by simp)) fun ss ts' hs ↦
    ⟨rfl, .block ht hs⟩

theorem sound_statements : statements.Sound (depth + 1) := by
  intro ts f
  simp only [read, Parser.statements, ensures_bind, ensures_peek, ensures_ite, ensures_take,
    ensures_pure, Parser.reject, ensures_throw]
  refine ⟨fun ht ↦ ?_, fun _ ↦ ⟨by simp, fun _ ↦ ?_⟩⟩
  · cases ts with
    | nil => simp [Cursor.next, Token.finish] at ht
    | cons t ts => exact ⟨rfl, .noStatement ht⟩
  · exact (ih statement trivial).ensures (depthFor_succ_le_of_rank (by simp [rank]))
      fun s ts₁ hs ↦ (ih statements trivial).ensures (depthFor_succ_le (hs.length_lt rfl))
        fun ss ts' hr ↦ ⟨rfl, .nextStatement hs hr⟩

theorem sound_statement : statement.Sound (depth + 1) := by
  intro ts f
  simp only [read, Parser.statement, Parser.optionalSemicolon, ensures_bind, ensures_ite,
    ensures_pure]
  refine (ih bareStatement trivial).ensures (depthFor_succ_le_of_rank (by simp [rank]))
    fun s ts₁ hs ↦ ⟨fun hc ↦ ⟨rfl, .commentStatement hs hc⟩, fun hc ↦ ?_⟩
  have hc := Bool.eq_false_iff.mpr hc
  refine ensures_takeIf (by decide) ?_ fun hn ↦ ⟨rfl, .openStatement hs hc hn⟩
  rintro t ts' rfl ht
  exact ⟨rfl, .closedStatement hs hc ht⟩

theorem sound_bareStatement : bareStatement.Sound (depth + 1) := by
  intro ts f
  simp only [read, Parser.bareStatement, ensures_bind, ensures_peek]
  have hx : ∀ {ts' : List Token} {Q : Expr → Cursor → Prop}, ts'.length ≤ ts.length →
      (∀ e ts'', Reads (expression .lowest) ts' e ts'' → Q e ⟨ts'', f⟩) →
      Ensures (Parser.expression depth .lowest) ⟨ts', f⟩ Q
        fun e _ ↦ e = .exhausted → depth + 1 < bareStatement.depthFor ts := by
    intro ts' Q hl
    refine (ih (expression .lowest) trivial).ensures ?_
    simp only [depthFor, rank]
    omega
  cases ts with
  | nil =>
    simp only [Cursor.next, List.headD_nil, Token.finish, ensures_bind, ensures_pure]
    exact hx (Nat.le_refl _) fun e ts' he ↦ absurd (he.length_lt rfl) (Nat.not_lt_zero _)
  | cons t ts =>
    simp only [Cursor.next, List.headD_cons]
    split <;> rename_i ht
    · simp only [Parser.binder, ensures_bind, ensures_take, ensures_ite, ensures_pure]
      refine ensures_expect (by decide) ?_
      rintro u ts₁ hu' hu
      obtain rfl : ts = u :: ts₁ := hu'
      refine ensures_takeIf (by decide) ?_ ?_
      · rintro v ts rfl hv
        refine ⟨fun _ ↦ hx (by simp only [List.length_cons]; omega) fun k ts₁ hk ↦ ?_, by simp⟩
        refine ensures_expect (by decide) ?_
        rintro w ts₁ rfl hw
        refine ensures_expect (by decide) ?_
        rintro x ts₁ rfl hx'
        have hl := hk.length_le
        refine hx ?_ fun e ts' he ↦ ⟨rfl, .store ht hu hv hk hw hx' he⟩
        simp only [List.length_cons] at *
        omega
      · intro _
        refine ⟨by simp, fun _ ↦ ensures_expect (by decide) ?_⟩
        rintro v ts rfl hv
        exact hx (by simp only [List.length_cons]; omega) fun e ts' he ↦ ⟨rfl, .bind ht hu hv he⟩
    · simp only [ensures_bind, ensures_take, ensures_pure]
      exact hx (by simp) fun e ts' he ↦ ⟨rfl, .ret ht he⟩
    · exact ⟨rfl, .comment ht⟩
    · simp only [ensures_bind, ensures_pure]
      exact hx (Nat.le_refl _) fun e ts' he ↦ ⟨rfl, .expr he⟩

end Step

/-- What the reader of a phrase gives is derived by the grammar, and the reader does not run out of
depth from `depthFor` on. -/
theorem sound_read (depth : Nat) : ∀ p : Phrase, p.Proper → p.Sound depth := by
  induction depth with
  | zero =>
    intro p _
    cases p with
    | parameters => exact sound_parameters 0
    | moreParameters => exact sound_moreParameters 0
    | _ =>
      intro ts f _
      exact Nat.add_pos_left (rank_pos _) _
  | succ depth ih =>
    intro p hp
    cases p with
    | parameters => exact sound_parameters _
    | moreParameters => exact sound_moreParameters _
    | expression level => exact sound_expression ih level
    | operand => exact sound_operand ih
    | operation level left => exact sound_operation ih level left
    | extension t left => exact sound_extension ih t left hp
    | subscript position target => exact sound_subscript ih position target
    | sliceEnd => exact sound_sliceEnd ih
    | conditional position => exact sound_conditional ih position
    | forLoop position => exact sound_forLoop ih position
    | expressions closing => exact sound_expressions ih closing hp
    | moreExpressions closing => exact sound_moreExpressions ih closing hp
    | pairs => exact sound_pairs ih
    | block => exact sound_block ih
    | statements => exact sound_statements ih
    | statement => exact sound_statement ih
    | bareStatement => exact sound_bareStatement ih

end Phrase

end Treewalk
