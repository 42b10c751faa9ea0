import Treewalk.Proofs.Grammar.Reading

/-!
# Readers accept what the grammar derives

The converse of `Phrase.sound_read`: where the grammar derives a phrase, its reader gives exactly
what the phrase denotes and stops where the phrase ends (`Phrase.accepts_read`). Together the two
make reading a text without errors the same as deriving a program from its tokens
(`Parsed.ofSource_eq_iff`).
-/

set_option autoImplicit false
set_option relaxedAutoImplicit false

namespace Treewalk

/-! ### The tokens that phrases start with -/

/-- The kinds of token that start an expression. -/
def Kind.startsExpression : Kind → Bool
  | ident | int | float | str | trueWord | falseWord | bang | minus | tilde | increment
  | decrement | lparen | ifWord | fnWord | whileWord | forWord | lbracket | lbrace => true
  | _ => false

/-- The kinds of token that a phrase can start with, where a reader depends on it. -/
def Phrase.startsWith : Phrase → Kind → Bool
  | expression _, k | operand, k => k.startsExpression
  | statement, k | bareStatement, k =>
    k.startsExpression || k = .letWord || k = .returnWord || k = .comment
  | block, k => k = .lbrace
  | _, _ => true

theorem Kind.startsExpression_of_unary {k : Kind} {operator : UnaryOperator}
    (h : UnaryOperator.ofKind? k = some operator) : k.startsExpression = true := by
  cases k <;> simp_all [UnaryOperator.ofKind?, startsExpression]

theorem Kind.startsExpression_of_step {k : Kind} {direction : StepDirection}
    (h : StepDirection.ofKind? k = some direction) : k.startsExpression = true := by
  cases k <;> simp_all [StepDirection.ofKind?, startsExpression]

theorem Reads.startsWith {p : Phrase} {ts ts' : List Token} {r : p.Result} (h : Reads p ts r ts') :
    p.startsWith (nextKind ts) = true := by
  induction h with
  | unary ht => exact Kind.startsExpression_of_unary ht
  | stepBefore ht => exact Kind.startsExpression_of_step ht
  | bool ht => simp only [Phrase.startsWith, nextKind_cons, ht]; split <;> rfl
  | expression _ _ ih => exact ih
  | commentStatement _ _ ih | closedStatement _ _ _ ih | openStatement _ _ _ ih => exact ih
  | expr _ ih =>
    simp only [Phrase.startsWith, nextKind_cons] at ih ⊢
    simp [ih]
  | _ => simp_all [Phrase.startsWith, Kind.startsExpression]

/-! ### Running the readers of one token -/

section Tokens

variable {t : Token} {ts : List Token} {f : Position} {k : Kind}

@[simp] theorem run_take : Parser.take ⟨t :: ts, f⟩ = .ok t ⟨ts, f⟩ :=
  rfl

@[simp] theorem run_peek : Parser.peek ⟨t :: ts, f⟩ = .ok t ⟨t :: ts, f⟩ :=
  rfl

@[simp] theorem run_expect (h : t.kind = k) : Parser.expect k ⟨t :: ts, f⟩ = .ok t ⟨ts, f⟩ := by
  simp [Parser.expect, h]

@[simp] theorem run_takeIf (h : t.kind = k) :
    Parser.takeIf k ⟨t :: ts, f⟩ = .ok true ⟨ts, f⟩ := by
  simp [Parser.takeIf, Parser.peekIs, h]

theorem run_takeIf_of_ne (hk : k ≠ .eof) (h : nextKind ts ≠ k) :
    Parser.takeIf k ⟨ts, f⟩ = .ok false ⟨ts, f⟩ := by
  cases ts with
  | nil => simp [Parser.takeIf, Parser.peekIs, Parser.peek, Cursor.next, Token.finish, Ne.symm hk]
  | cons t ts =>
    have h : t.kind ≠ k := h
    simp [Parser.takeIf, Parser.peekIs, h]

/-- Where an expression starts, no token is taken that starts none. -/
theorem Reads.run_takeIf {level : Precedence} {ts' : List Token} {e : Expr}
    (h : Reads (.expression level) ts e ts') (k : Kind) (hk : k.startsExpression = false) :
    Parser.takeIf k ⟨ts, f⟩ = .ok false ⟨ts, f⟩ := by
  have hs := h.startsWith
  cases ts with
  | nil => simp [Phrase.startsWith, Kind.startsExpression] at hs
  | cons t ts =>
    have ht : t.kind ≠ k := by
      rintro rfl
      exact absurd hs (by simp [Phrase.startsWith, hk])
    simp [Parser.takeIf, Parser.peekIs, ht]

@[simp] theorem run_binder (h : t.kind = .ident) :
    Parser.binder ⟨t :: ts, f⟩ = .ok t.binder ⟨ts, f⟩ := by
  simp [Parser.binder, h, Token.binder]

end Tokens

/-! ### Running the readers of phrases -/

namespace Phrase

/-- At this depth, if it is large enough for the tokens, the reader of a phrase gives what the
grammar derives and stops where the phrase ends. -/
def Accepts (p : Phrase) (depth : Nat) : Prop :=
  ∀ ⦃ts : List Token⦄ ⦃r : p.Result⦄ ⦃ts' : List Token⦄ (f : Position), Reads p ts r ts' →
    p.depthFor ts ≤ depth → p.read depth ⟨ts, f⟩ = .ok r ⟨ts', f⟩

end Phrase

section Run

variable {p q : Phrase} {ts ts₁ ts' : List Token} {r : q.Result} {depth : Nat} {f : Position}

/-- A phrase after at least one more token is read at the next lower depth. -/
theorem Reads.run (h : Reads q ts₁ r ts') (ih : ∀ p : Phrase, p.Proper → p.Accepts depth)
    (hq : q.Proper) (hd : p.depthFor ts ≤ depth + 1) (hl : ts₁.length < ts.length) :
    q.read depth ⟨ts₁, f⟩ = .ok r ⟨ts', f⟩ :=
  ih q hq f h (Nat.le_of_succ_le_succ (Nat.le_trans (Phrase.depthFor_succ_le hl) hd))

/-- A phrase of lower rank at the same token is read at the next lower depth. -/
theorem Reads.run_of_rank (h : Reads q ts r ts') (ih : ∀ p : Phrase, p.Proper → p.Accepts depth)
    (hq : q.Proper) (hd : p.depthFor ts ≤ depth + 1) (hlt : q.rank < p.rank) :
    q.read depth ⟨ts, f⟩ = .ok r ⟨ts', f⟩ :=
  ih q hq f h (Nat.le_of_succ_le_succ (Nat.le_trans (Phrase.depthFor_succ_le_of_rank hlt) hd))

end Run

namespace Phrase

section Step

variable {depth : Nat} (ih : ∀ p : Phrase, p.Proper → p.Accepts depth)

include ih

theorem accepts_moreParameters : moreParameters.Accepts (depth + 1) := by
  intro ts r ts' f h hd
  cases h with
  | lastParameter ht => simp [Parser.moreParameters, run_takeIf_of_ne, ht]
  | nextParameter ht hu hs =>
    have hr := hs.run (f := f) ih trivial hd
      (by simp only [List.length_cons]; omega)
    simp [Parser.moreParameters, ht, hu, hr]

theorem accepts_parameters : parameters.Accepts (depth + 1) := by
  intro ts r ts' f h hd
  cases h with
  | noParameter ht => simp [Parser.parameters, ht]
  | parameter ht hs =>
    -- the parameters after the first are read at the same depth
    have hr := accepts_moreParameters ih f hs
      (Nat.le_of_succ_le (Nat.le_trans (depthFor_succ_le (Nat.lt_succ_self _)) hd))
    simp [Parser.parameters, run_takeIf_of_ne, ht, hr]

theorem accepts_expression (level : Precedence) : (expression level).Accepts (depth + 1) := by
  intro ts r ts' f h hd
  cases h with
  | @expression _ _ l _ _ _ hl he =>
    simp [Parser.expression, hl.run_of_rank (f := f) ih trivial hd (by simp [rank]),
      he.run (f := f) ih trivial hd (hl.length_lt rfl)]

theorem accepts_operand : operand.Accepts (depth + 1) := by
  intro ts r ts' f h hd
  cases h with
  | name ht => simp [Parser.operand, ht]
  | int ht hv => simp [Parser.operand, Parser.integer, ht, hv]
  | float ht hx => simp [Parser.operand, Parser.float, ht, hx]
  | str ht => simp [Parser.operand, ht]
  | @bool t ts b ht => cases b <;> simp_all [Parser.operand]
  | @unary t _ operator _ _ ht he =>
    have hr := he.run (f := f) ih trivial hd (Nat.lt_succ_self _)
    cases hk : t.kind <;> simp_all [UnaryOperator.ofKind?, Parser.operand]
  | @stepBefore t _ _ _ _ ht he =>
    have hr := he.run (f := f) ih trivial hd (Nat.lt_succ_self _)
    cases hk : t.kind <;> simp_all [StepDirection.ofKind?, Parser.operand]
  | group ht he hu =>
    simp [Parser.operand, ht, hu, he.run ih trivial hd (Nat.lt_succ_self _)]
  | ifOperand ht he =>
    simp [Parser.operand, ht, he.run ih trivial hd (Nat.lt_succ_self _)]
  | function ht hu hn hb =>
    have hl := hn.length_le
    simp [Parser.operand, ht, hu,
      hn.run (f := f) ih trivial hd (by simp only [List.length_cons]; omega),
      hb.run (f := f) ih trivial hd (by simp only [List.length_cons]; omega)]
  | whileLoop ht hc hb =>
    simp [Parser.operand, ht, hc.run (f := f) ih trivial hd (Nat.lt_succ_self _),
      hb.run (f := f) ih trivial hd (Nat.lt_succ_of_le hc.length_le)]
  | forOperand ht he =>
    simp [Parser.operand, ht, he.run ih trivial hd (Nat.lt_succ_self _)]
  | array ht he =>
    simp [Parser.operand, ht, he.run ih (.inr rfl) hd (Nat.lt_succ_self _)]
  | hash ht hp =>
    simp [Parser.operand, ht, hp.run ih trivial hd (Nat.lt_succ_self _)]

theorem accepts_operation (level : Precedence) (left : Expr) :
    (operation level left).Accepts (depth + 1) := by
  intro ts r ts' f h hd
  cases h with
  | stop hs =>
    cases ts with
    | nil => simp_all [Parser.operation, Parser.peek, Cursor.next, Token.finish]
    | cons t ts => simp_all [Parser.operation]
  | goOn ht he hr =>
    have hp := Nat.lt_of_le_of_lt (Nat.zero_le _) ht
    simp [Parser.operation, ht, he.run (f := f) ih hp hd (Nat.lt_succ_self _),
      hr.run (f := f) ih trivial hd (Nat.lt_succ_of_le he.length_le)]

theorem accepts_extension (t : Token) (left : Expr) : (extension t left).Accepts (depth + 1) := by
  intro ts r ts' f h hd
  cases h with
  | call ht he =>
    simp [Parser.extension, ht, he.run_of_rank ih (.inl rfl) hd (by simp [rank])]
  | element ht he =>
    simp [Parser.extension, ht, he.run_of_rank ih trivial hd (by simp [rank])]
  | stepAfter ht =>
    cases hk : t.kind <;> simp_all [StepDirection.ofKind?, Parser.extension]
  | range ht he =>
    have hr := he.run_of_rank (f := f) ih trivial hd (by simp [rank])
    cases hk : t.kind <;> simp_all [RangeBound.ofKind?, Parser.extension]
  | binary ht he =>
    have hr : Parser.expression depth (Precedence.of t.kind) ⟨ts, f⟩ = _ :=
      he.run_of_rank ih trivial hd (by simp [rank])
    clear ih he
    cases hk : t.kind <;> simp_all [BinaryOperator.ofKind?, Parser.extension]

theorem accepts_subscript (position : Position) (target : Expr) :
    (subscript position target).Accepts (depth + 1) := by
  intro ts r ts' f h hd
  cases h with
  | sliceFromStart ht hs =>
    simp [Parser.subscript, ht, hs.run ih trivial hd (Nat.lt_succ_self _)]
  | slice hf ht hs =>
    simp [Parser.subscript, ht, hf.run_takeIf .colon rfl,
      hf.run_of_rank (f := f) ih trivial hd (by simp [rank]),
      hs.run (f := f) ih trivial hd hf.length_le]
  | index hf ht =>
    simp [Parser.subscript, ht, run_takeIf_of_ne, hf.run_takeIf .colon rfl,
      hf.run_of_rank (f := f) ih trivial hd (by simp [rank])]

theorem accepts_sliceEnd : sliceEnd.Accepts (depth + 1) := by
  intro ts r ts' f h hd
  cases h with
  | noSliceEnd ht => simp [Parser.sliceEnd, ht]
  | sliceEnd he ht =>
    simp [Parser.sliceEnd, ht, he.run_takeIf .rbracket rfl,
      he.run_of_rank (f := f) ih trivial hd (by simp [rank])]

theorem accepts_conditional (position : Position) :
    (conditional position).Accepts (depth + 1) := by
  intro ts r ts' f h hd
  cases h with
  | onlyIf hc hb he =>
    simp [Parser.conditional, run_takeIf_of_ne, he,
      hc.run_of_rank (f := f) ih trivial hd (by simp [rank]),
      hb.run (f := f) ih trivial hd (hc.length_lt rfl)]
  | elseIf hc hb ht hu he =>
    have hl := Nat.lt_of_lt_of_le (hb.length_lt rfl) hc.length_le
    simp [Parser.conditional, ht, hu,
      hc.run_of_rank (f := f) ih trivial hd (by simp [rank]),
      hb.run (f := f) ih trivial hd (hc.length_lt rfl),
      he.run (f := f) ih trivial hd (by simp only [List.length_cons] at hl ⊢; omega)]
  | @orElse _ _ _ _ _ _ ts₂ _ _ hc hb ht he =>
    have hl := Nat.lt_of_lt_of_le (hb.length_lt rfl) hc.length_le
    have hn := he.startsWith
    cases ts₂ with
    | nil => simp [Phrase.startsWith] at hn
    | cons u ts₂ =>
      have hn : u.kind = .lbrace := of_decide_eq_true hn
      simp [Parser.conditional, ht, hn,
        hc.run_of_rank (f := f) ih trivial hd (by simp [rank]),
        hb.run (f := f) ih trivial hd (hc.length_lt rfl),
        he.run (f := f) ih trivial hd (by simp only [List.length_cons] at hl ⊢; omega)]

theorem accepts_forLoop (position : Position) : (forLoop position).Accepts (depth + 1) := by
  intro ts r ts' f h hd
  cases h with
  | forLoop ht hs hu hn hc hv ha hw hb =>
    have h₁ := hs.length_le
    have h₂ := hc.length_le
    have h₃ := ha.length_le
    simp only [List.length_cons] at h₁ h₂ h₃
    simp [Parser.forLoop, ht, hu, hn, hv, hw,
      hs.run (f := f) ih trivial hd (Nat.lt_succ_self _),
      hc.run (f := f) ih trivial hd (by simp only [List.length_cons]; omega),
      ha.run (f := f) ih trivial hd (by simp only [List.length_cons]; omega),
      hb.run (f := f) ih trivial hd (by simp only [List.length_cons]; omega)]

theorem accepts_expressions (closing : Kind) (hp : (expressions closing).Proper) :
    (expressions closing).Accepts (depth + 1) := by
  intro ts r ts' f h hd
  cases h with
  | noExpression ht => simp [Parser.expressions, ht]
  | firstExpression he hs =>
    have hr := he.run_of_rank (f := f) ih trivial hd (by simp [rank])
    have hr' := hs.run (f := f) ih hp hd (he.length_lt rfl)
    rcases hp with rfl | rfl <;>
      simp [Parser.expressions, he.run_takeIf .rparen rfl, he.run_takeIf .rbracket rfl, hr, hr']

theorem accepts_moreExpressions (closing : Kind) (hp : (moreExpressions closing).Proper) :
    (moreExpressions closing).Accepts (depth + 1) := by
  intro ts r ts' f h hd
  cases h with
  | lastExpression ht =>
    rcases hp with rfl | rfl <;> simp [Parser.moreExpressions, run_takeIf_of_ne, ht]
  | nextExpression ht he hs =>
    simp [Parser.moreExpressions, ht, he.run (f := f) ih trivial hd (Nat.lt_succ_self _),
      hs.run (f := f) ih hp hd (Nat.lt_succ_of_le he.length_le)]

theorem accepts_pairs : pairs.Accepts (depth + 1) := by
  intro ts r ts' f h hd
  cases h with
  | noPair ht => simp [Parser.pairs, ht]
  | lastPair hk ht hv hu =>
    simp [Parser.pairs, ht, hu, hk.run_takeIf .rbrace rfl,
      hk.run_of_rank (f := f) ih trivial hd (by simp [rank]),
      hv.run (f := f) ih trivial hd hk.length_le]
  | nextPair hk ht hv hu hp =>
    have h₁ := hk.length_le
    have h₂ := hv.length_le
    simp only [List.length_cons] at h₁ h₂
    simp [Parser.pairs, ht, hu, run_takeIf_of_ne, hk.run_takeIf .rbrace rfl,
      hk.run_of_rank (f := f) ih trivial hd (by simp [rank]),
      hv.run (f := f) ih trivial hd hk.length_le,
      hp.run (f := f) ih trivial hd (by omega)]

theorem accepts_block : block.Accepts (depth + 1) := by
  intro ts r ts' f h hd
  cases h with
  | block ht hs => simp [Parser.block, ht, hs.run ih trivial hd (Nat.lt_succ_self _)]

theorem accepts_statements : statements.Accepts (depth + 1) := by
  intro ts r ts' f h hd
  cases h with
  | noStatement ht => simp [Parser.statements, ht]
  | nextStatement hs hr =>
    have hn := hs.startsWith
    cases ts with
    | nil => simp [Phrase.startsWith, Kind.startsExpression] at hn
    | cons t ts =>
      have hb : t.kind ≠ .rbrace := by
        intro h
        simp [Phrase.startsWith, h, Kind.startsExpression] at hn
      have he : t.kind ≠ .eof := by
        intro h
        simp [Phrase.startsWith, h, Kind.startsExpression] at hn
      simp [Parser.statements, hb, he,
        hs.run_of_rank (f := f) ih trivial hd (by simp [rank]),
        hr.run (f := f) ih trivial hd (hs.length_lt rfl)]

theorem accepts_statement : statement.Accepts (depth + 1) := by
  intro ts r ts' f h hd
  cases h with
  | commentStatement hs hc =>
    simp [Parser.statement, hc, hs.run_of_rank (f := f) ih trivial hd (by simp [rank])]
  | closedStatement hs hc ht =>
    simp [Parser.statement, Parser.optionalSemicolon, hc, ht,
      hs.run_of_rank (f := f) ih trivial hd (by simp [rank])]
  | openStatement hs hc hn =>
    simp [Parser.statement, Parser.optionalSemicolon, hc, run_takeIf_of_ne, hn,
      hs.run_of_rank (f := f) ih trivial hd (by simp [rank])]

theorem accepts_bareStatement : bareStatement.Accepts (depth + 1) := by
  intro ts r ts' f h hd
  cases h with
  | bind ht hu hv he =>
    simp [Parser.bareStatement, ht, hu, hv, run_takeIf_of_ne,
      he.run (f := f) ih trivial hd (by simp only [List.length_cons]; omega)]
  | store ht hu hv hk hw hx he =>
    have hl := hk.length_le
    simp only [List.length_cons] at hl
    simp [Parser.bareStatement, ht, hu, hv, hw, hx,
      hk.run (f := f) ih trivial hd (by simp only [List.length_cons]; omega),
      he.run (f := f) ih trivial hd (by simp only [List.length_cons]; omega)]
  | ret ht he =>
    simp [Parser.bareStatement, ht, he.run (f := f) ih trivial hd (Nat.lt_succ_self _)]
  | comment ht => simp [Parser.bareStatement, ht]
  | @expr t ts _ _ he =>
    have hr := he.run_of_rank (f := f) ih trivial hd (by simp [rank])
    have hn := he.startsWith
    simp only [Phrase.startsWith, nextKind_cons] at hn
    clear ih
    cases hk : t.kind <;> simp_all [Parser.bareStatement, Kind.startsExpression]

end Step

/-- Where the grammar derives a phrase, its reader gives what the phrase denotes. -/
theorem accepts_read (depth : Nat) (p : Phrase) (hp : p.Proper) : p.Accepts depth := by
  induction depth generalizing p with
  | zero =>
    intro ts r ts' f _ hd
    exact absurd (Nat.le_zero.mp (Nat.le_trans (Nat.le_add_right _ _) hd)) (Nat.ne_of_gt p.rank_pos)
  | succ depth ih =>
    cases p with
    | parameters => exact accepts_parameters ih
    | moreParameters => exact accepts_moreParameters ih
    | expression level => exact accepts_expression ih level
    | operand => exact accepts_operand ih
    | operation level left => exact accepts_operation ih level left
    | extension t left => exact accepts_extension ih t left
    | subscript position target => exact accepts_subscript ih position target
    | sliceEnd => exact accepts_sliceEnd ih
    | conditional position => exact accepts_conditional ih position
    | forLoop position => exact accepts_forLoop ih position
    | expressions closing => exact accepts_expressions ih closing hp
    | moreExpressions closing => exact accepts_moreExpressions ih closing hp
    | pairs => exact accepts_pairs ih
    | block => exact accepts_block ih
    | statements => exact accepts_statements ih
    | statement => exact accepts_statement ih
    | bareStatement => exact accepts_bareStatement ih

end Phrase

/-! ### Whole texts -/

theorem Phrase.depthFor_statement_le (ts : List Token) :
    Phrase.statement.depthFor ts ≤ Parser.depthFor ts.length := by
  simp only [Phrase.depthFor, Phrase.rank, Parser.depthFor]
  omega

/-- A text that is read without errors is a derived program. The bound on the number of statements
is large enough because a statement covers at least one token. -/
theorem readsProgram_of_errors_eq_nil (count : Nat) (ts : List Token) (f : Position)
    (hc : ts.length ≤ count) (h : (Parsed.ofCursor count ⟨ts, f⟩).errors = []) :
    ReadsProgram ts (Parsed.ofCursor count ⟨ts, f⟩).program := by
  induction count generalizing ts with
  | zero =>
    obtain rfl : ts = [] := List.length_eq_zero_iff.mp (Nat.le_zero.mp hc)
    exact .nil
  | succ count ih =>
    rw [Parsed.ofCursor] at h ⊢
    cases ts with
    | nil => exact .nil
    | cons t ts =>
      have hread :=
        Phrase.sound_read (Parser.depthFor (t :: ts).length) .statement trivial (t :: ts) f
      simp only [List.isEmpty_cons, Bool.false_eq_true, ↓reduceIte] at h ⊢
      cases hr : Parser.statement (Parser.depthFor (t :: ts).length) ⟨t :: ts, f⟩ with
      | ok s c =>
        obtain ⟨rest, f'⟩ := c
        have ⟨hf, hs⟩ := hread.of_ok hr
        have hl : rest.length < (t :: ts).length := hs.length_lt rfl
        obtain rfl : f' = f := hf
        simp only [hr] at h ⊢
        exact .cons hs (ih rest (by omega) h)
      | error e c =>
        cases e with
        | rejected e =>
          simp only [hr] at h
          contradiction
        | exhausted =>
          have hlt := hread.of_error hr rfl
          have hle := Phrase.depthFor_statement_le (t :: ts)
          omega

theorem ReadsProgram.ofCursor_eq {ts : List Token} {program : Program}
    (h : ReadsProgram ts program) (f : Position) (count : Nat) (hc : ts.length ≤ count) :
    Parsed.ofCursor count ⟨ts, f⟩ = ⟨program, []⟩ := by
  induction h generalizing count with
  | nil => cases count <;> rfl
  | @cons ts s ts' ss hs hr ih =>
    have hl := hs.length_lt rfl
    have hs := Phrase.accepts_read (Parser.depthFor ts.length) .statement trivial f hs
      (Phrase.depthFor_statement_le ts)
    obtain ⟨count, rfl⟩ : ∃ n, count = n + 1 := ⟨count - 1, by omega⟩
    have hn : ts ≠ [] := by
      rintro rfl
      simp at hl
    simp [Parsed.ofCursor, hn, hs, ih count (by omega)]

theorem readsProgram_ofSource (source : String) (h : (Parsed.ofSource source).errors = []) :
    ReadsProgram (Token.ofSource source) (Parsed.ofSource source).program :=
  readsProgram_of_errors_eq_nil _ _ _ (Nat.le_refl _) h

/-- Reading a text without errors is deriving a program from its tokens. -/
theorem Parsed.ofSource_eq_iff (source : String) (program : Program) :
    Parsed.ofSource source = ⟨program, []⟩ ↔ ReadsProgram (Token.ofSource source) program := by
  constructor
  · intro h
    have hr := readsProgram_ofSource source (congrArg Parsed.errors h)
    rwa [h] at hr
  · exact fun h ↦ h.ofCursor_eq _ _ (Nat.le_refl _)

end Treewalk
