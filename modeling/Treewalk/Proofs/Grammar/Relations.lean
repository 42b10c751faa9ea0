import Treewalk.Grammar.Parser
import Treewalk.Proofs.Token.Joining
import Treewalk.Proofs.Tree.Places

/-!
# Relations between readers

Readers are put together from few parts: looking at a token, taking one, giving up, sequences and
choices. So a relation between readers that holds of the parts and is kept by putting them together
holds between each reader and the same reader on tokens at other places and in other spellings, and
with a larger bound on its depth (`Parser.relatedAt`). The text of a token matters only for some
kinds (`Kind.hasText`). What readers do with such tokens, that they only move forward and that the
bound matters only where it is used up are all instances.
-/

set_option autoImplicit false
set_option relaxedAutoImplicit false

namespace Treewalk

/-- The error at another place. -/
def ParseError.relocate (g : Position → Position) : ParseError → ParseError
  | .unexpectedToken expected found p => .unexpectedToken expected found (g p)
  | .noExpression found p => .noExpression found (g p)
  | .invalidInteger literal p => .invalidInteger literal (g p)
  | .invalidFloat literal p => .invalidFloat literal (g p)

/-- Whether the text of a token of this kind is part of what it means. The other kinds are spelt in
one way only, or in several that mean the same. -/
def Kind.hasText : Kind → Bool
  | .comment | .ident | .int | .float | .str => true
  | _ => false

/-- The token at another place, and spelt in another way if its text has no meaning. -/
def Token.respell (g : Position → Position) (spell : String → String) (t : Token) : Token :=
  ⟨t.kind, bif t.kind.hasText then t.literal else spell t.literal, g t.position⟩

variable {g : Position → Position} {spell : String → String}

@[simp] theorem Token.respell_kind (t : Token) : (t.respell g spell).kind = t.kind :=
  rfl

theorem Token.respell_literal {t : Token} (h : t.kind.hasText = true) :
    (t.respell g spell).literal = t.literal := by
  rw [respell, h, cond_true]

theorem Stmt.isComment_relocate (s : Stmt) : (s.relocate g).isComment = s.isComment := by
  cases s <;> rfl

namespace Parser

/-- A relation between readers that their parts have and that is kept by putting parts together. It
relates a reader to one on tokens at the places that `g` gives and in the spelling of `spell`, whose
results are those of the first changed by a function. -/
structure Relation (g : Position → Position) (spell : String → String)
    (R : ∀ {α β : Type}, (α → β) → Parser α → Parser β → Prop) : Prop where
  pure : ∀ {α β : Type} {f : α → β} {a : α} {b : β}, f a = b → R f (pure a) (pure b)
  exhausted : ∀ {α β : Type} {f : α → β}, R f (throw .exhausted) (throw .exhausted)
  reject : ∀ {α β : Type} {f : α → β} {e d : ParseError}, e.relocate g = d →
    R f (reject e) (reject d)
  bind : ∀ {α β γ δ : Type} {f : α → β} {f' : γ → δ} {m : Parser α} {n : Parser β}
    {k : α → Parser γ} {l : β → Parser δ}, R f m n → (∀ a, R f' (k a) (l (f a))) →
      R f' (m >>= k) (n >>= l)
  peek : R (Token.respell g spell) peek peek
  take : R (Token.respell g spell) take take
  -- This does not follow from `take`: the text is kept because the token that is taken is a name.
  binder : R (Name.relocate g) binder binder

variable {R : ∀ {α β : Type}, (α → β) → Parser α → Parser β → Prop}

/-- A reader whose depth is used up is related to every other one. -/
def ExhaustedLeast (R : ∀ {α β : Type}, (α → β) → Parser α → Parser β → Prop) : Prop :=
  ∀ {α β : Type} {f : α → β} (n : Parser β), R f (throw .exhausted) n

namespace Relation

variable {α β γ δ : Type} {f : α → β} {m : Parser α} {n : Parser β} (h : Relation g spell R)

include h

/-- Something is made of a result. -/
theorem map {f' : γ → δ} {k : α → γ} {l : β → δ} (hm : R f m n) (hk : ∀ a, f' (k a) = l (f a)) :
    R f' (m >>= fun a ↦ Pure.pure (k a)) (n >>= fun b ↦ Pure.pure (l b)) :=
  h.bind hm fun a ↦ h.pure (hk a)

omit h in
theorem ite (_ : Relation g spell R) {p : Prop} [Decidable p] {m' : Parser α} {n' : Parser β}
    (hm : R f m n) (hm' : R f m' n') : R f (if p then m else m') (if p then n else n') := by
  split
  · exact hm
  · exact hm'

theorem takeIf (k : Kind) : R id (Parser.takeIf k) (Parser.takeIf k) := by
  have hpeek : R id (Parser.peekIs k) (Parser.peekIs k) := h.map h.peek fun _ ↦ rfl
  exact h.bind hpeek fun _ ↦ h.ite (h.map h.take fun _ ↦ rfl) (h.pure rfl)

theorem expect (k : Kind) : R (Token.respell g spell) (Parser.expect k) (Parser.expect k) :=
  h.bind h.peek fun _ ↦ h.ite h.take (h.reject rfl)

theorem integer {t : Token} (ht : t.kind.hasText = true) :
    R (Expr.relocate g) (Parser.integer t) (Parser.integer (t.respell g spell)) := by
  unfold Parser.integer
  rw [Token.respell_literal ht]
  cases (Decimal.readInt? t.literal.toList).bind Word.ofInt? with
  | some value => exact h.pure rfl
  | none => exact h.reject rfl

theorem float {t : Token} (ht : t.kind.hasText = true) :
    R (Expr.relocate g) (Parser.float t) (Parser.float (t.respell g spell)) := by
  unfold Parser.float
  rw [Token.respell_literal ht]
  cases Decimal.readFloat? t.literal.toList with
  | some value => exact h.pure rfl
  | none => exact h.reject rfl

theorem moreParameters {depth depth' : Nat} (hle : depth ≤ depth')
    (hz : depth = depth' ∨ ExhaustedLeast R) :
    R (List.map (Name.relocate g)) (Parser.moreParameters depth)
      (Parser.moreParameters depth') := by
  induction depth generalizing depth' with
  | zero =>
    rcases hz with rfl | hz
    · exact h.exhausted
    · exact hz _
  | succ depth ih =>
    obtain ⟨depth', rfl⟩ := Nat.exists_eq_add_of_le' (Nat.lt_of_lt_of_le (Nat.succ_pos depth) hle)
    have ih := ih (Nat.le_of_succ_le_succ hle) (hz.imp_left Nat.succ.inj)
    refine h.bind (h.takeIf .comma) fun b ↦ h.ite ?_ ?_
    · exact h.bind h.binder fun name ↦ h.map ih fun _ ↦ rfl
    · exact h.map (h.expect .rparen) fun _ ↦ rfl

theorem parameters {depth depth' : Nat} (hle : depth ≤ depth')
    (hz : depth = depth' ∨ ExhaustedLeast R) :
    R (List.map (Name.relocate g)) (Parser.parameters depth) (Parser.parameters depth') := by
  refine h.bind (h.takeIf .rparen) fun b ↦ h.ite (h.pure rfl) ?_
  exact h.bind h.binder fun name ↦ h.map (h.moreParameters hle hz) fun _ ↦ rfl

end Relation

/-! ### Readers -/

/-- Every reader is related to itself on tokens at other places and in another spelling, and with
another bound on its depth. -/
structure RelatedAt (g : Position → Position) (spell : String → String)
    (R : ∀ {α β : Type}, (α → β) → Parser α → Parser β → Prop) (depth depth' : Nat) : Prop where
  parameters :
    R (List.map (Name.relocate g)) (parameters depth) (parameters depth')
  expression (level : Precedence) :
    R (Expr.relocate g) (expression depth level) (expression depth' level)
  operand : R (Expr.relocate g) (operand depth) (operand depth')
  operation (level : Precedence) (left : Expr) :
    R (Expr.relocate g) (operation depth level left)
      (operation depth' level (left.relocate g))
  extension (t : Token) (left : Expr) :
    R (Expr.relocate g) (extension depth t left)
      (extension depth' (t.respell g spell) (left.relocate g))
  subscript (position : Position) (target : Expr) :
    R (Expr.relocate g) (subscript depth position target)
      (subscript depth' (g position) (target.relocate g))
  sliceEnd : R (Expr.relocateOption g) (sliceEnd depth) (sliceEnd depth')
  conditional (position : Position) :
    R (Expr.relocate g) (conditional depth position) (conditional depth' (g position))
  forLoop (position : Position) :
    R (Expr.relocate g) (forLoop depth position) (forLoop depth' (g position))
  expressions (closing : Kind) :
    R (Expr.relocateList g) (expressions depth closing) (expressions depth' closing)
  moreExpressions (closing : Kind) :
    R (Expr.relocateList g) (moreExpressions depth closing) (moreExpressions depth' closing)
  pairs : R (Expr.relocatePairs g) (pairs depth) (pairs depth')
  block : R (Block.relocate g) (block depth) (block depth')
  statements : R (Stmt.relocateList g) (statements depth) (statements depth')
  statement : R (Stmt.relocate g) (statement depth) (statement depth')
  bareStatement : R (Stmt.relocate g) (bareStatement depth) (bareStatement depth')

section Step

variable {depth depth' : Nat} (h : Relation g spell R) (ih : RelatedAt g spell R depth depth')

include h ih

theorem RelatedAt.expression_succ (level : Precedence) :
    R (Expr.relocate g) (Parser.expression (depth + 1) level)
      (Parser.expression (depth' + 1) level) := by
  rw [Parser.expression, Parser.expression]
  exact h.bind ih.operand fun left ↦ ih.operation level left

/-- What starts an expression is read by taking a token and going on as it says. -/
theorem RelatedAt.exists_operand :
    ∃ k l : Token → Parser Expr, Parser.operand (depth + 1) = Parser.take >>= k ∧
      Parser.operand (depth' + 1) = Parser.take >>= l ∧
      ∀ t, R (Expr.relocate g) (k t) (l (t.respell g spell)) := by
  rw [Parser.operand, Parser.operand]
  refine ⟨_, _, rfl, rfl, fun t ↦ ?_⟩
  obtain ⟨kind, literal, position⟩ := t
  cases kind <;> dsimp only [Token.respell]
  case ident => exact h.pure rfl
  case int => exact h.integer rfl
  case float => exact h.float rfl
  case str => exact h.pure rfl
  case trueWord => exact h.pure rfl
  case falseWord => exact h.pure rfl
  case bang => exact h.map (ih.expression _) fun _ ↦ rfl
  case minus => exact h.map (ih.expression _) fun _ ↦ rfl
  case tilde => exact h.map (ih.expression _) fun _ ↦ rfl
  case increment => exact h.map (ih.expression _) fun _ ↦ rfl
  case decrement => exact h.map (ih.expression _) fun _ ↦ rfl
  case lparen => exact h.bind (ih.expression _) fun _ ↦ h.map (h.expect .rparen) fun _ ↦ rfl
  case ifWord => exact ih.conditional position
  case fnWord =>
    refine h.bind (h.expect .lparen) fun _ ↦ h.bind ih.parameters fun names ↦ ?_
    exact h.map ih.block fun _ ↦ rfl
  case whileWord => exact h.bind (ih.expression _) fun _ ↦ h.map ih.block fun _ ↦ rfl
  case forWord => exact ih.forLoop position
  case lbracket => exact h.map (ih.expressions _) fun _ ↦ rfl
  case lbrace => exact h.map ih.pairs fun _ ↦ rfl
  all_goals exact h.reject rfl

theorem RelatedAt.operand_succ :
    R (Expr.relocate g) (Parser.operand (depth + 1)) (Parser.operand (depth' + 1)) := by
  obtain ⟨k, l, hk, hl, hR⟩ := RelatedAt.exists_operand h ih
  rw [hk, hl]
  exact h.bind h.take hR

theorem RelatedAt.operation_succ (level : Precedence) (left : Expr) :
    R (Expr.relocate g) (Parser.operation (depth + 1) level left)
      (Parser.operation (depth' + 1) level (left.relocate g)) := by
  rw [Parser.operation, Parser.operation]
  refine h.bind h.peek fun t ↦ h.ite ?_ (h.pure rfl)
  exact h.bind h.take fun _ ↦ h.bind (ih.extension t left) fun e ↦ ih.operation level e

theorem RelatedAt.extension_succ (t : Token) (left : Expr) :
    R (Expr.relocate g) (Parser.extension (depth + 1) t left)
      (Parser.extension (depth' + 1) (t.respell g spell) (left.relocate g)) := by
  rw [Parser.extension, Parser.extension]
  obtain ⟨kind, literal, position⟩ := t
  cases kind <;> dsimp only [Token.respell, BinaryOperator.ofKind?]
  case lparen => exact h.map (ih.expressions _) fun _ ↦ rfl
  case lbracket => exact ih.subscript position left
  all_goals first
    | exact h.pure rfl
    | exact h.map (ih.expression _) fun _ ↦ rfl

theorem RelatedAt.subscript_succ (position : Position) (target : Expr) :
    R (Expr.relocate g) (Parser.subscript (depth + 1) position target)
      (Parser.subscript (depth' + 1) (g position) (target.relocate g)) := by
  rw [Parser.subscript, Parser.subscript]
  refine h.bind (h.takeIf .colon) fun _ ↦ h.ite (h.map ih.sliceEnd fun _ ↦ rfl) ?_
  refine h.bind (ih.expression _) fun first ↦ h.bind (h.takeIf .colon) fun _ ↦ h.ite ?_ ?_
  · exact h.map ih.sliceEnd fun _ ↦ rfl
  · exact h.map (h.expect .rbracket) fun _ ↦ rfl

theorem RelatedAt.sliceEnd_succ :
    R (Expr.relocateOption g) (Parser.sliceEnd (depth + 1)) (Parser.sliceEnd (depth' + 1)) := by
  rw [Parser.sliceEnd, Parser.sliceEnd]
  refine h.bind (h.takeIf .rbracket) fun _ ↦ h.ite (h.pure rfl) ?_
  exact h.bind (ih.expression _) fun _ ↦ h.map (h.expect .rbracket) fun _ ↦ rfl

theorem RelatedAt.conditional_succ (position : Position) :
    R (Expr.relocate g) (Parser.conditional (depth + 1) position)
      (Parser.conditional (depth' + 1) (g position)) := by
  rw [Parser.conditional, Parser.conditional]
  refine h.bind (ih.expression _) fun condition ↦ h.bind ih.block fun consequence ↦ ?_
  refine h.bind (h.takeIf .elseWord) fun _ ↦ h.ite ?_ (h.pure rfl)
  refine h.bind h.peek fun t ↦ h.ite ?_ (h.map ih.block fun _ ↦ rfl)
  exact h.bind h.take fun _ ↦ h.map (ih.conditional t.position) fun _ ↦ rfl

theorem RelatedAt.forLoop_succ (position : Position) :
    R (Expr.relocate g) (Parser.forLoop (depth + 1) position)
      (Parser.forLoop (depth' + 1) (g position)) := by
  rw [Parser.forLoop, Parser.forLoop]
  refine h.bind (h.expect .lparen) fun _ ↦ h.bind ih.bareStatement fun start ↦
    h.bind h.peek fun t ↦ ?_
  rw [Token.respell_kind, start.isComment_relocate]
  refine h.ite ?_ (h.reject rfl)
  refine h.bind h.take fun _ ↦ h.bind (ih.expression _) fun condition ↦ ?_
  refine h.bind (h.expect .semicolon) fun _ ↦ h.bind ih.statement fun advance ↦ ?_
  exact h.bind (h.expect .rparen) fun _ ↦ h.map ih.block fun _ ↦ rfl

theorem RelatedAt.expressions_succ (closing : Kind) :
    R (Expr.relocateList g) (Parser.expressions (depth + 1) closing)
      (Parser.expressions (depth' + 1) closing) := by
  rw [Parser.expressions, Parser.expressions]
  refine h.bind (h.takeIf closing) fun _ ↦ h.ite (h.pure rfl) ?_
  exact h.bind (ih.expression _) fun _ ↦ h.map (ih.moreExpressions closing) fun _ ↦ rfl

theorem RelatedAt.moreExpressions_succ (closing : Kind) :
    R (Expr.relocateList g) (Parser.moreExpressions (depth + 1) closing)
      (Parser.moreExpressions (depth' + 1) closing) := by
  rw [Parser.moreExpressions, Parser.moreExpressions]
  refine h.bind (h.takeIf .comma) fun _ ↦ h.ite ?_ ?_
  · exact h.bind (ih.expression _) fun _ ↦ h.map (ih.moreExpressions closing) fun _ ↦ rfl
  · exact h.map (h.expect closing) fun _ ↦ rfl

theorem RelatedAt.pairs_succ :
    R (Expr.relocatePairs g) (Parser.pairs (depth + 1)) (Parser.pairs (depth' + 1)) := by
  rw [Parser.pairs, Parser.pairs]
  refine h.bind (h.takeIf .rbrace) fun _ ↦ h.ite (h.pure rfl) ?_
  refine h.bind (ih.expression _) fun key ↦ h.bind (h.expect .colon) fun _ ↦
    h.bind (ih.expression _) fun value ↦ h.bind (h.takeIf .rbrace) fun _ ↦ h.ite (h.pure rfl) ?_
  exact h.bind (h.expect .comma) fun _ ↦ h.map ih.pairs fun _ ↦ rfl

theorem RelatedAt.block_succ :
    R (Block.relocate g) (Parser.block (depth + 1)) (Parser.block (depth' + 1)) := by
  rw [Parser.block, Parser.block]
  exact h.bind (h.expect .lbrace) fun _ ↦ h.map ih.statements fun _ ↦ rfl

theorem RelatedAt.statements_succ :
    R (Stmt.relocateList g) (Parser.statements (depth + 1)) (Parser.statements (depth' + 1)) := by
  rw [Parser.statements, Parser.statements]
  refine h.bind h.peek fun t ↦ h.ite (h.map h.take fun _ ↦ rfl) (h.ite (h.reject rfl) ?_)
  exact h.bind ih.statement fun _ ↦ h.map ih.statements fun _ ↦ rfl

theorem RelatedAt.statement_succ :
    R (Stmt.relocate g) (Parser.statement (depth + 1)) (Parser.statement (depth' + 1)) := by
  rw [Parser.statement, Parser.statement]
  refine h.bind ih.bareStatement fun s ↦ ?_
  rw [s.isComment_relocate]
  refine h.ite (h.pure rfl) ?_
  have hsemicolon : R id Parser.optionalSemicolon Parser.optionalSemicolon :=
    h.map (h.takeIf .semicolon) fun _ ↦ rfl
  exact h.map hsemicolon fun _ ↦ rfl

theorem RelatedAt.bareStatement_succ :
    R (Stmt.relocate g) (Parser.bareStatement (depth + 1))
      (Parser.bareStatement (depth' + 1)) := by
  rw [Parser.bareStatement, Parser.bareStatement]
  refine h.bind h.peek fun t ↦ ?_
  obtain ⟨kind, literal, position⟩ := t
  cases kind <;> dsimp only [Token.respell]
  case letWord =>
    refine h.bind h.take fun _ ↦ h.bind h.binder fun name ↦
      h.bind (h.takeIf .lbracket) fun _ ↦ h.ite ?_ ?_
    · refine h.bind (ih.expression _) fun key ↦ h.bind (h.expect .rbracket) fun _ ↦ ?_
      exact h.bind (h.expect .assign) fun _ ↦ h.map (ih.expression _) fun _ ↦ rfl
    · exact h.bind (h.expect .assign) fun _ ↦ h.map (ih.expression _) fun _ ↦ rfl
  case returnWord => exact h.bind h.take fun _ ↦ h.map (ih.expression _) fun _ ↦ rfl
  case comment => exact h.map h.take fun _ ↦ rfl
  all_goals exact h.map (ih.expression _) fun _ ↦ rfl

end Step

/-- A relation that the parts of readers have holds of every reader. The bounds on the depth may
differ if a reader whose depth is used up is related to every other one. -/
theorem relatedAt {depth depth' : Nat} (h : Relation g spell R) (hle : depth ≤ depth')
    (hz : depth = depth' ∨ ExhaustedLeast R) : RelatedAt g spell R depth depth' := by
  induction depth generalizing depth' with
  | zero =>
    have hp := h.parameters hle hz
    rcases hz with rfl | hz
    · exact ⟨hp, fun _ ↦ h.exhausted, h.exhausted, fun _ _ ↦ h.exhausted, fun _ _ ↦ h.exhausted,
        fun _ _ ↦ h.exhausted, h.exhausted, fun _ ↦ h.exhausted, fun _ ↦ h.exhausted,
        fun _ ↦ h.exhausted, fun _ ↦ h.exhausted, h.exhausted, h.exhausted, h.exhausted,
        h.exhausted, h.exhausted⟩
    · exact ⟨hp, fun _ ↦ hz _, hz _, fun _ _ ↦ hz _, fun _ _ ↦ hz _, fun _ _ ↦ hz _, hz _,
        fun _ ↦ hz _, fun _ ↦ hz _, fun _ ↦ hz _, fun _ ↦ hz _, hz _, hz _, hz _, hz _, hz _⟩
  | succ depth ih =>
    have hp := h.parameters hle hz
    obtain ⟨depth', rfl⟩ := Nat.exists_eq_add_of_le' (Nat.lt_of_lt_of_le (Nat.succ_pos depth) hle)
    have ih := ih (Nat.le_of_succ_le_succ hle) (hz.imp_left Nat.succ.inj)
    exact ⟨hp, RelatedAt.expression_succ h ih, RelatedAt.operand_succ h ih,
      RelatedAt.operation_succ h ih, RelatedAt.extension_succ h ih, RelatedAt.subscript_succ h ih,
      RelatedAt.sliceEnd_succ h ih, RelatedAt.conditional_succ h ih, RelatedAt.forLoop_succ h ih,
      RelatedAt.expressions_succ h ih, RelatedAt.moreExpressions_succ h ih,
      RelatedAt.pairs_succ h ih, RelatedAt.block_succ h ih, RelatedAt.statements_succ h ih,
      RelatedAt.statement_succ h ih, RelatedAt.bareStatement_succ h ih⟩

end Parser

end Treewalk
