import Treewalk.Proofs.Grammar.Diagnosis

/-!
# Errors that contradict themselves

An error about an unexpected token names the kind that was required and the kind that was found. A
reader that requires a kind gives the error only if it finds another one, with one exception. The
semicolon behind the start of a loop has to end it as a statement, and a semicolon does not end a
comment. So where a comment is the start of a loop, the semicolon behind it is refused because a
semicolon is required.

`Cursor.CommentLoop` are the places where such a loop begins. What is shown of a reader is that it
comes past none of them unless it fails with the error that belongs to it, and that otherwise it
never fails with an error that contradicts itself (`Tracks`). So a text has such an error exactly
for every such place in it (`ofSource_contradicts_iff`).
-/

set_option autoImplicit false
set_option relaxedAutoImplicit false

namespace Treewalk

/-! ### Loops that start with a comment -/

namespace Cursor

/-- At the cursor begins a loop with a comment as its start, and the semicolon behind the comment is
at the place `p`. -/
structure CommentLoop (c : Cursor) (p : Position) : Prop where
  word : c.next.kind = .forWord
  bracket : c.advance.next.kind = .lparen
  comment : c.advance.advance.next.kind = .comment
  semicolon : c.advance.advance.advance.next.kind = .semicolon
  place : p = c.advance.advance.advance.next.position

/-- The cursor follows another one, and no loop that starts with a comment begins between them. -/
def FollowsCleanly (d c : Cursor) : Prop :=
  d.Follows c ∧ ∀ (u : Cursor) (p : Position), u.Follows c → u.CommentLoop p → u.Follows d

variable {b c d : Cursor} {p q : Position}

/-- What follows a cursor is there or behind the next token. -/
theorem Follows.eq_or_advance (h : d.Follows c) : d = c ∨ d.Follows c.advance := by
  obtain ⟨rest, finish⟩ := c
  obtain ⟨rest', finish'⟩ := d
  obtain ⟨hrest, rfl⟩ := h
  cases rest with
  | nil =>
    obtain rfl := List.suffix_nil.mp hrest
    exact .inl rfl
  | cons t rest =>
    rcases List.suffix_cons_iff.mp hrest with rfl | hrest
    · exact .inl rfl
    · exact .inr ⟨hrest, rfl⟩

theorem FollowsCleanly.refl (c : Cursor) : c.FollowsCleanly c :=
  ⟨.refl c, fun _ _ hu _ ↦ hu⟩

theorem FollowsCleanly.trans (hd : d.FollowsCleanly c) (hc : c.FollowsCleanly b) :
    d.FollowsCleanly b :=
  ⟨hd.1.trans hc.1, fun u p hu hloop ↦ hd.2 u p (hc.2 u p hu hloop) hloop⟩

theorem followsCleanly_advance (h : ∀ p, ¬ c.CommentLoop p) : c.advance.FollowsCleanly c := by
  refine ⟨c.advance_follows, fun u p hu hloop ↦ ?_⟩
  rcases hu.eq_or_advance with rfl | hu
  · exact absurd hloop (h p)
  · exact hu

theorem followsCleanly_advance_of_kind (h : c.next.kind ≠ .forWord) :
    c.advance.FollowsCleanly c :=
  followsCleanly_advance fun _ hloop ↦ h hloop.word

end Cursor

/-! ### What readers come past -/

/-- The error requires the kind of token that it found. -/
def ParseError.Contradicts (e : ParseError) : Prop :=
  ∃ (kind : Kind) (p : Position), e = .unexpectedToken kind kind p

/-- The failure does not contradict itself and leaves a cursor that follows cleanly, or it is about
the semicolon behind a comment that is the start of a loop, and it comes past this loop only. -/
def Failure.Accounts (failure : Failure) (c d : Cursor) : Prop :=
  ∀ e, failure = .rejected e →
    ¬ e.Contradicts ∧ d.FollowsCleanly c ∨
    ∃ (u : Cursor) (p : Position), u.FollowsCleanly c ∧ u.CommentLoop p ∧
      e = .unexpectedToken .semicolon .semicolon p ∧ d.FollowsCleanly u.advance

variable {α β : Type}

/-- Started at `d`, the reader comes past no loop behind `c` that starts with a comment, unless it
fails with the error about it. -/
def Tracks (m : Parser α) (c d : Cursor) : Prop :=
  Ensures m d (fun _ rest ↦ rest.FollowsCleanly c) fun failure rest ↦ failure.Accounts c rest

/-- The reader does so wherever it is started. -/
def Steady (m : Parser α) : Prop :=
  ∀ c : Cursor, Tracks m c c

theorem Failure.Accounts.of_follows {failure : Failure} {b c d : Cursor}
    (h : failure.Accounts c d) (hc : c.FollowsCleanly b) : failure.Accounts b d := by
  intro e he
  rcases h e he with ⟨hne, hd⟩ | ⟨u, p, hu, hloop, heq, hd⟩
  · exact .inl ⟨hne, hd.trans hc⟩
  · exact .inr ⟨u, p, hu.trans hc, hloop, heq, hd⟩

theorem Steady.tracks {m : Parser α} {c d : Cursor} (h : Steady m) (hd : d.FollowsCleanly c) :
    Tracks m c d :=
  (h d).imp (fun _ _ hr ↦ hr.trans hd) fun _ _ hf ↦ hf.of_follows hd

/-- Only the outcome matters. -/
theorem Tracks.congr {m n : Parser α} {c d d' : Cursor} (h : m d = n d') :
    Tracks m c d ↔ Tracks n c d' := by
  unfold Tracks Ensures
  rw [h]

theorem Tracks.bind {m : Parser α} {f : α → Parser β} {c d : Cursor} (hm : Tracks m c d)
    (hf : ∀ a, Steady (f a)) : Tracks (m >>= f) c d := by
  unfold Tracks
  rw [ensures_bind]
  exact hm.imp (fun a rest hr ↦ (hf a).tracks hr) fun _ _ hf ↦ hf

theorem Tracks.reject {e : ParseError} {c d : Cursor} (he : ¬ e.Contradicts)
    (hd : d.FollowsCleanly c) : Tracks (Parser.reject e : Parser α) c d := by
  rintro e' ⟨⟩
  exact .inl ⟨he, hd⟩

/-- A token that begins no loop may be taken. -/
theorem Tracks.take_bind {f : Token → Parser β} {c : Cursor} (hc : c.next.kind ≠ .forWord)
    (hf : Steady (f c.next)) : Tracks (Parser.take >>= f) c c :=
  hf.tracks (Cursor.followsCleanly_advance_of_kind hc)

theorem not_contradicts_of_ne {expected found : Kind} {p : Position} (h : found ≠ expected) :
    ¬ (ParseError.unexpectedToken expected found p).Contradicts := by
  rintro ⟨kind, q, he⟩
  cases he
  exact h rfl

namespace Steady

variable {m m' : Parser α} {f : α → Parser β}

protected theorem pure (a : α) : Steady (pure a) :=
  fun c ↦ .refl c

theorem exhausted : Steady (throw .exhausted : Parser α) := by
  rintro c e ⟨⟩

protected theorem bind (hm : Steady m) (hf : ∀ a, Steady (f a)) : Steady (m >>= f) :=
  fun c ↦ (hm c).bind hf

protected theorem ite {p : Prop} [Decidable p] (hm : Steady m) (hm' : Steady m') :
    Steady (if p then m else m') := by
  split
  · exact hm
  · exact hm'

theorem peek_bind {f : Token → Parser β} (hf : ∀ c : Cursor, Tracks (f c.next) c c) :
    Steady (Parser.peek >>= f) :=
  hf

theorem take_bind {f : Token → Parser β} (hf : ∀ c : Cursor, Tracks (f c.next) c c.advance) :
    Steady (Parser.take >>= f) :=
  hf

theorem expect {k : Kind} (hk : k ≠ .forWord) : Steady (Parser.expect k) := by
  refine peek_bind fun c ↦ ?_
  split
  · next h => exact Cursor.followsCleanly_advance_of_kind (h ▸ hk)
  · next h => exact .reject (not_contradicts_of_ne h) (.refl c)

theorem takeIf {k : Kind} (hk : k ≠ .forWord) : Steady (Parser.takeIf k) := by
  intro c
  by_cases h : c.next.kind = k
  · have hrun : Parser.takeIf k c = .ok true c.advance := by
      simp [Parser.takeIf, Parser.peekIs, Parser.peek, Parser.take, h]
    unfold Tracks Ensures
    rw [hrun]
    exact Cursor.followsCleanly_advance_of_kind (h ▸ hk)
  · have hrun : Parser.takeIf k c = .ok false c := by
      simp [Parser.takeIf, Parser.peekIs, Parser.peek, h]
    unfold Tracks Ensures
    rw [hrun]
    exact .refl c

theorem noExpression {k : Kind} {p : Position} :
    Steady (Parser.reject (.noExpression k p) : Parser α) :=
  fun c ↦ .reject (by rintro ⟨_, _, ⟨⟩⟩) (.refl c)

theorem binder : Steady Parser.binder :=
  (expect (by decide)).bind fun _ ↦ .pure _

theorem optionalSemicolon : Steady Parser.optionalSemicolon :=
  (takeIf (by decide)).bind fun _ ↦ .pure ()

end Steady

/-! ### Readers -/

theorem steady_integer (t : Token) : Steady (Parser.integer t) := by
  unfold Parser.integer
  split
  · exact .pure _
  · exact fun c ↦ .reject (by rintro ⟨_, _, ⟨⟩⟩) (.refl c)

theorem steady_float (t : Token) : Steady (Parser.float t) := by
  unfold Parser.float
  split
  · exact .pure _
  · exact fun c ↦ .reject (by rintro ⟨_, _, ⟨⟩⟩) (.refl c)

theorem steady_moreParameters (depth : Nat) : Steady (Parser.moreParameters depth) := by
  induction depth with
  | zero => exact .exhausted
  | succ depth ih =>
    refine (Steady.takeIf (by decide)).bind fun _ ↦ .ite ?_ ?_
    · exact Steady.binder.bind fun _ ↦ ih.bind fun _ ↦ .pure _
    · exact (Steady.expect (by decide)).bind fun _ ↦ .pure _

theorem steady_parameters (depth : Nat) : Steady (Parser.parameters depth) := by
  refine (Steady.takeIf (by decide)).bind fun _ ↦ .ite (.pure _) ?_
  exact Steady.binder.bind fun _ ↦ (steady_moreParameters depth).bind fun _ ↦ .pure _

/-! ### The start of a loop -/

namespace Parser

/-- A loop behind its start. -/
def loopBehind (depth : Nat) (position : Position) (start : Stmt) : Parser Expr := do
  let t ← peek
  if t.kind = .semicolon && !start.isComment then
    let _ ← take
    let condition ← expression depth .lowest
    let _ ← expect .semicolon
    let advance ← statement depth
    let _ ← expect .rparen
    return .forLoop position start condition advance (← block depth)
  else reject (.unexpectedToken .semicolon t.kind t.position)

theorem forLoop_eq (depth : Nat) (position : Position) :
    forLoop (depth + 1) position =
      expect .lparen >>= fun _ ↦ bareStatement depth >>= loopBehind depth position := by
  rw [forLoop]
  rfl

theorem expect_bind_of_kind {β : Type} {k : Kind} {c : Cursor} (h : c.next.kind = k)
    (f : Token → Parser β) : (expect k >>= f) c = f c.next c.advance := by
  simp [expect, peek, take, h]

theorem expect_bind_of_ne {β : Type} {k : Kind} {c : Cursor} (h : c.next.kind ≠ k)
    (f : Token → Parser β) :
    (expect k >>= f) c = reject (.unexpectedToken k c.next.kind c.next.position) c := by
  simp only [expect, peek, run_bind, h, ↓reduceIte]
  rfl

/-- A comment is no start, whatever stands behind it. -/
theorem start_comment {c : Cursor} (h : c.next.kind = .comment) (depth : Nat)
    (position : Position) :
    (bareStatement (depth + 1) >>= loopBehind (depth + 1) position) c =
      reject (.unexpectedToken .semicolon c.advance.next.kind c.advance.next.position)
        c.advance := by
  have hstart : bareStatement (depth + 1) c =
      .ok (.comment c.next.position c.next.literal) c.advance := by
    simp [bareStatement, peek, take, h]
  rw [run_bind, hstart]
  simp only [loopBehind, Stmt.isComment, Bool.not_true, Bool.and_false, Bool.false_eq_true,
    ↓reduceIte]
  rfl

/-- A statement that does not begin with a comment is none. -/
theorem isComment_bareStatement {depth : Nat} {c : Cursor} (hc : c.next.kind ≠ .comment) :
    Ensures (bareStatement depth) c (fun s _ ↦ s.isComment = false) fun _ _ ↦ True := by
  obtain ⟨ts, f⟩ := c
  refine (Phrase.sound_read depth .bareStatement trivial ts f).imp ?_ fun _ _ _ ↦ trivial
  rintro s d ⟨-, hs⟩
  cases hs with
  | comment ht => exact absurd ht hc
  | bind | store | ret | expr => rfl

end Parser

namespace Phrase

/-- The reader of a phrase is steady. That of a loop is so behind the word that begins it. -/
def IsSteady : Phrase → Nat → Prop
  | forLoop position, depth =>
    ∀ c : Cursor, c.next.kind = .forWord → Tracks (Parser.forLoop depth position) c c.advance
  | p, depth => Steady (p.read depth)

theorem ne_forWord_of_proper {closing : Kind} (h : (expressions closing).Proper) :
    closing ≠ .forWord := by
  rcases h with rfl | rfl <;> decide

/-- Where the start is a comment, the token behind it is refused even if it is a semicolon. -/
theorem tracks_commentStart (depth : Nat) (position : Position) {c : Cursor}
    (hc : c.next.kind = .forWord) (hbracket : c.advance.next.kind = .lparen)
    (hcomment : c.advance.advance.next.kind = .comment) :
    Tracks (Parser.bareStatement depth >>= Parser.loopBehind depth position) c
      c.advance.advance := by
  cases depth with
  | zero => rintro e ⟨⟩
  | succ depth =>
    refine (Tracks.congr (Parser.start_comment hcomment depth position)).mpr ?_
    have hbehind : c.advance.advance.advance.FollowsCleanly c.advance :=
      (Cursor.followsCleanly_advance_of_kind (by simp [hcomment])).trans
        (Cursor.followsCleanly_advance_of_kind (by simp [hbracket]))
    by_cases hsemicolon : c.advance.advance.advance.next.kind = .semicolon
    · rintro e ⟨⟩
      rw [hsemicolon]
      exact .inr ⟨c, _, .refl c, ⟨hc, hbracket, hcomment, hsemicolon, rfl⟩, rfl, hbehind⟩
    · refine .reject (not_contradicts_of_ne hsemicolon) (hbehind.trans ?_)
      exact Cursor.followsCleanly_advance fun _ h ↦ hsemicolon h.semicolon

section Step

variable {depth : Nat} (ih : ∀ p : Phrase, p.Proper → p.IsSteady depth)

include ih

theorem steady_expression (level : Precedence) :
    Steady (Parser.expression (depth + 1) level) := by
  rw [Parser.expression]
  exact (ih .operand trivial).bind fun left ↦ ih (.operation level left) trivial

theorem steady_operand : Steady (Parser.operand (depth + 1)) := by
  rw [Parser.operand]
  refine .take_bind fun c ↦ ?_
  have hnext : ∀ {m : Parser Expr}, c.next.kind ≠ .forWord → Steady m → Tracks m c c.advance :=
    fun hk h ↦ h.tracks (Cursor.followsCleanly_advance_of_kind hk)
  have hprefix : ∀ f : Expr → Expr,
      Steady (Parser.expression depth .unary >>= fun e ↦ pure (f e)) :=
    fun f ↦ (ih (.expression .unary) trivial).bind fun e ↦ .pure (f e)
  -- Only a loop depends on what stands before it.
  cases hk : c.next.kind <;> dsimp only
  case forWord => exact ih (.forLoop _) trivial c hk
  all_goals refine hnext (by simp [hk]) ?_
  case ident => exact .pure _
  case int => exact steady_integer _
  case float => exact steady_float _
  case str => exact .pure _
  case trueWord => exact .pure _
  case falseWord => exact .pure _
  case bang => exact hprefix _
  case minus => exact hprefix _
  case tilde => exact hprefix _
  case increment => exact hprefix _
  case decrement => exact hprefix _
  case lparen =>
    refine (ih (.expression .lowest) trivial).bind fun _ ↦ ?_
    exact (Steady.expect (by decide)).bind fun _ ↦ .pure _
  case ifWord => exact ih (.conditional _) trivial
  case fnWord =>
    refine (Steady.expect (by decide)).bind fun _ ↦ (steady_parameters depth).bind fun _ ↦ ?_
    exact (ih .block trivial).bind fun _ ↦ .pure _
  case whileWord =>
    refine (ih (.expression .lowest) trivial).bind fun _ ↦ ?_
    exact (ih .block trivial).bind fun _ ↦ .pure _
  case lbracket => exact (ih (.expressions .rbracket) (.inr rfl)).bind fun _ ↦ .pure _
  case lbrace => exact (ih .pairs trivial).bind fun _ ↦ .pure _
  all_goals exact .noExpression

theorem steady_operation (level : Precedence) (left : Expr) :
    Steady (Parser.operation (depth + 1) level left) := by
  rw [Parser.operation]
  refine .peek_bind fun c ↦ ?_
  split
  · next hlevel =>
    have hproper : Precedence.lowest < Precedence.of c.next.kind :=
      Nat.lt_of_le_of_lt (Nat.zero_le _) hlevel
    refine .take_bind (fun hk ↦ ?_) ((ih (.extension c.next left) hproper).bind fun e ↦ ?_)
    · rw [hk] at hproper
      exact absurd hproper (by decide)
    · exact ih (.operation level e) trivial
  · exact .refl c

theorem steady_extension (t : Token) (left : Expr) :
    Steady (Parser.extension (depth + 1) t left) := by
  have hexpression : ∀ (level : Precedence) (f : Expr → Expr),
      Steady (Parser.expression depth level >>= fun e ↦ pure (f e)) :=
    fun level f ↦ (ih (.expression level) trivial).bind fun e ↦ .pure (f e)
  rw [Parser.extension]
  cases t.kind <;> dsimp only [BinaryOperator.ofKind?]
  case lparen => exact (ih (.expressions .rparen) (.inl rfl)).bind fun _ ↦ .pure _
  case lbracket => exact ih (.subscript _ left) trivial
  all_goals first
    | exact .pure _
    | exact hexpression _ _

theorem steady_subscript (position : Position) (target : Expr) :
    Steady (Parser.subscript (depth + 1) position target) := by
  have hend : ∀ f : Option Expr → Expr,
      Steady (Parser.sliceEnd depth >>= fun stop ↦ pure (f stop)) :=
    fun f ↦ (ih .sliceEnd trivial).bind fun stop ↦ .pure (f stop)
  rw [Parser.subscript]
  refine (Steady.takeIf (by decide)).bind fun _ ↦ .ite (hend _) ?_
  refine (ih (.expression .lowest) trivial).bind fun first ↦ ?_
  refine (Steady.takeIf (by decide)).bind fun _ ↦ .ite (hend _) ?_
  exact (Steady.expect (by decide)).bind fun _ ↦ .pure _

theorem steady_sliceEnd : Steady (Parser.sliceEnd (depth + 1)) := by
  rw [Parser.sliceEnd]
  refine (Steady.takeIf (by decide)).bind fun _ ↦ .ite (.pure none) ?_
  exact (ih (.expression .lowest) trivial).bind fun stop ↦
    (Steady.expect (by decide)).bind fun _ ↦ .pure (some stop)

theorem steady_conditional (position : Position) :
    Steady (Parser.conditional (depth + 1) position) := by
  rw [Parser.conditional]
  refine (ih (.expression .lowest) trivial).bind fun condition ↦ ?_
  refine (ih .block trivial).bind fun consequence ↦ ?_
  refine (Steady.takeIf (by decide)).bind fun _ ↦ .ite (.peek_bind fun c ↦ ?_) (.pure _)
  split
  · next hk =>
    refine .take_bind (by simp [hk]) ?_
    exact (ih (.conditional c.next.position) trivial).bind fun _ ↦ .pure _
  · exact ((ih .block trivial).bind fun _ ↦ .pure _) c

/-- Behind a start that is no comment, only a semicolon is not refused. -/
theorem steady_loopBehind (position : Position) {start : Stmt} (hstart : start.isComment = false) :
    Steady (Parser.loopBehind depth position start) := by
  refine Steady.peek_bind fun c ↦ ?_
  simp only [hstart, Bool.not_false, Bool.and_true, decide_eq_true_eq]
  split
  · next hk =>
    refine .take_bind (by simp [hk]) ?_
    refine (ih (.expression .lowest) trivial).bind fun condition ↦ ?_
    refine (Steady.expect (by decide)).bind fun _ ↦ (ih .statement trivial).bind fun advance ↦ ?_
    exact (Steady.expect (by decide)).bind fun _ ↦ (ih .block trivial).bind fun _ ↦ .pure _
  · next hk => exact .reject (not_contradicts_of_ne hk) (.refl c)

theorem tracks_forLoop (position : Position) {c : Cursor} (hc : c.next.kind = .forWord) :
    Tracks (Parser.forLoop (depth + 1) position) c c.advance := by
  rw [Parser.forLoop_eq]
  -- Without the bracket or without the comment, no loop that starts with a comment begins here.
  by_cases hbracket : c.advance.next.kind = .lparen
  swap
  · refine (Tracks.congr (Parser.expect_bind_of_ne hbracket _)).mpr ?_
    refine .reject (not_contradicts_of_ne hbracket) ?_
    exact Cursor.followsCleanly_advance fun _ h ↦ hbracket h.bracket
  refine (Tracks.congr (Parser.expect_bind_of_kind hbracket _)).mpr ?_
  have hbehind : c.advance.advance.FollowsCleanly c.advance :=
    Cursor.followsCleanly_advance_of_kind (by simp [hbracket])
  by_cases hcomment : c.advance.advance.next.kind = .comment
  · exact tracks_commentStart depth position hc hbracket hcomment
  · have hclean : c.advance.FollowsCleanly c :=
      Cursor.followsCleanly_advance fun _ h ↦ hcomment h.comment
    have hstart := (ih .bareStatement trivial).tracks (hbehind.trans hclean)
    refine ensures_bind.mpr ((hstart.and (Parser.isComment_bareStatement hcomment)).imp ?_ ?_)
    · rintro start d ⟨hd, hnot⟩
      exact (steady_loopBehind ih position hnot).tracks hd
    · exact fun _ _ h ↦ h.1

theorem steady_expressions {closing : Kind} (hp : (expressions closing).Proper) :
    Steady (Parser.expressions (depth + 1) closing) := by
  rw [Parser.expressions]
  refine (Steady.takeIf (ne_forWord_of_proper hp)).bind fun _ ↦ .ite (.pure []) ?_
  exact (ih (.expression .lowest) trivial).bind fun _ ↦
    (ih (.moreExpressions closing) hp).bind fun _ ↦ .pure _

theorem steady_moreExpressions {closing : Kind} (hp : (moreExpressions closing).Proper) :
    Steady (Parser.moreExpressions (depth + 1) closing) := by
  rw [Parser.moreExpressions]
  refine (Steady.takeIf (by decide)).bind fun _ ↦ .ite ?_ ?_
  · exact (ih (.expression .lowest) trivial).bind fun _ ↦
      (ih (.moreExpressions closing) hp).bind fun _ ↦ .pure _
  · exact (Steady.expect (ne_forWord_of_proper hp)).bind fun _ ↦ .pure []

theorem steady_pairs : Steady (Parser.pairs (depth + 1)) := by
  rw [Parser.pairs]
  refine (Steady.takeIf (by decide)).bind fun _ ↦ .ite (.pure []) ?_
  refine (ih (.expression .lowest) trivial).bind fun key ↦ ?_
  refine (Steady.expect (by decide)).bind fun _ ↦ ?_
  refine (ih (.expression .lowest) trivial).bind fun value ↦ ?_
  refine (Steady.takeIf (by decide)).bind fun _ ↦ .ite (.pure _) ?_
  exact (Steady.expect (by decide)).bind fun _ ↦ (ih .pairs trivial).bind fun _ ↦ .pure _

theorem steady_block : Steady (Parser.block (depth + 1)) := by
  rw [Parser.block]
  exact (Steady.expect (by decide)).bind fun _ ↦ (ih .statements trivial).bind fun _ ↦ .pure _

theorem steady_statements : Steady (Parser.statements (depth + 1)) := by
  rw [Parser.statements]
  refine .peek_bind fun c ↦ ?_
  split
  · next hk => exact .take_bind (by simp [hk]) (.pure _)
  split
  · exact .reject (not_contradicts_of_ne (by decide)) (.refl c)
  · exact ((ih .statement trivial).bind fun _ ↦ (ih .statements trivial).bind fun _ ↦ .pure _) c

theorem steady_statement : Steady (Parser.statement (depth + 1)) := by
  rw [Parser.statement]
  refine (ih .bareStatement trivial).bind fun s ↦ .ite (.pure s) ?_
  exact Steady.optionalSemicolon.bind fun _ ↦ .pure s

theorem steady_bareStatement : Steady (Parser.bareStatement (depth + 1)) := by
  have hexpression : ∀ f : Expr → Stmt,
      Steady (Parser.expression depth .lowest >>= fun e ↦ pure (f e)) :=
    fun f ↦ (ih (.expression .lowest) trivial).bind fun e ↦ .pure (f e)
  have hassign : ∀ f : Expr → Stmt, Steady (do
      let _ ← Parser.expect .assign
      return f (← Parser.expression depth .lowest)) :=
    fun f ↦ (Steady.expect (by decide)).bind fun _ ↦ hexpression f
  rw [Parser.bareStatement]
  refine .peek_bind fun c ↦ ?_
  split
  · next hk =>
    refine .take_bind (by simp [hk]) (Steady.binder.bind fun name ↦ ?_)
    refine (Steady.takeIf (by decide)).bind fun _ ↦ .ite ?_ (hassign _)
    exact (ih (.expression .lowest) trivial).bind fun key ↦
      (Steady.expect (by decide)).bind fun _ ↦ hassign _
  · next hk => exact .take_bind (by simp [hk]) (hexpression _)
  · next hk => exact .take_bind (by simp [hk]) (.pure _)
  · exact hexpression _ c

end Step

theorem steady_read (depth : Nat) (p : Phrase) (hp : p.Proper) : p.IsSteady depth := by
  induction depth generalizing p with
  | zero =>
    cases p with
    | parameters => exact steady_parameters 0
    | forLoop position =>
      rintro c - e ⟨⟩
    | _ => exact .exhausted
  | succ depth ih =>
    cases p with
    | parameters => exact steady_parameters (depth + 1)
    | moreParameters => exact steady_moreParameters (depth + 1)
    | expression level => exact steady_expression ih level
    | operand => exact steady_operand ih
    | operation level left => exact steady_operation ih level left
    | extension t left => exact steady_extension ih t left
    | subscript position target => exact steady_subscript ih position target
    | sliceEnd => exact steady_sliceEnd ih
    | conditional position => exact steady_conditional ih position
    | forLoop position => exact fun c hc ↦ tracks_forLoop ih position hc
    | expressions closing => exact steady_expressions ih hp
    | moreExpressions closing => exact steady_moreExpressions ih hp
    | pairs => exact steady_pairs ih
    | block => exact steady_block ih
    | statements => exact steady_statements ih
    | statement => exact steady_statement ih
    | bareStatement => exact steady_bareStatement ih

end Phrase

/-! ### Runs -/

namespace Cursor

variable {c d : Cursor} {p q : Position}

/-- Somewhere from the cursor on is a loop that starts with a comment, and the semicolon behind the
comment is at the place `p`. -/
def HasCommentLoop (c : Cursor) (p : Position) : Prop :=
  ∃ u : Cursor, u.Follows c ∧ u.CommentLoop p

theorem FollowsCleanly.hasCommentLoop_iff (h : d.FollowsCleanly c) :
    c.HasCommentLoop p ↔ d.HasCommentLoop p := by
  constructor
  · rintro ⟨u, hu, hloop⟩
    exact ⟨u, h.2 u p hu hloop, hloop⟩
  · rintro ⟨u, hu, hloop⟩
    exact ⟨u, hu.trans h.1, hloop⟩

theorem CommentLoop.hasCommentLoop_iff (h : c.CommentLoop q) :
    c.HasCommentLoop p ↔ p = q ∨ c.advance.HasCommentLoop p := by
  constructor
  · rintro ⟨u, hu, hloop⟩
    rcases hu.eq_or_advance with rfl | hu
    · exact .inl (hloop.place.trans h.place.symm)
    · exact .inr ⟨u, hu, hloop⟩
  · rintro (rfl | ⟨u, hu, hloop⟩)
    · exact ⟨c, .refl c, h⟩
    · exact ⟨u, hu.trans c.advance_follows, hloop⟩

theorem not_hasCommentLoop_finish {f : Position} : ¬ (⟨[], f⟩ : Cursor).HasCommentLoop p := by
  rintro ⟨⟨rest, finish⟩, ⟨hrest, -⟩, hloop⟩
  obtain rfl : rest = [] := List.suffix_nil.mp hrest
  cases hloop.word

/-- The loops that start with a comment are in the token list. -/
theorem hasCommentLoop_iff_rest : c.HasCommentLoop p ↔
    ∃ (before : List Token) (t u v w : Token) (rest : List Token),
      c.rest = before ++ t :: u :: v :: w :: rest ∧ t.kind = .forWord ∧ u.kind = .lparen ∧
      v.kind = .comment ∧ w.kind = .semicolon ∧ p = w.position := by
  constructor
  · rintro ⟨⟨ts, finish⟩, ⟨⟨before, hc⟩, -⟩, hloop⟩
    obtain ⟨hword, hbracket, hcomment, hsemicolon, rfl⟩ := hloop
    match ts with
    | t :: u :: v :: w :: rest =>
      exact ⟨before, t, u, v, w, rest, hc.symm, hword, hbracket, hcomment, hsemicolon, rfl⟩
    | [] => cases hword
    | [_] => cases hbracket
    | [_, _] => cases hcomment
    | [_, _, _] => cases hsemicolon
  · rintro ⟨before, t, u, v, w, rest, hc, ht, hu, hv, hw, rfl⟩
    exact ⟨⟨t :: u :: v :: w :: rest, c.finish⟩, ⟨⟨before, hc.symm⟩, rfl⟩, ht, hu, hv, hw, rfl⟩

theorem Gives.followsCleanly {s : Stmt} (h : c.Gives (.ok s d)) : d.FollowsCleanly c := by
  obtain ⟨depth, hdepth⟩ := h
  exact (Phrase.steady_read depth .statement trivial c).of_ok (hdepth depth (Nat.le_refl depth))

theorem Gives.accounts {failure : Failure} (h : c.Gives (.error failure d)) :
    failure.Accounts c d := by
  obtain ⟨depth, hdepth⟩ := h
  exact (Phrase.steady_read depth .statement trivial c).of_error (hdepth depth (Nat.le_refl depth))

/-- A run has an error that contradicts itself for every loop that starts with a comment, and no
other. -/
theorem ReadsTo.contradicts_iff {parsed : Parsed} {kind : Kind} (h : c.ReadsTo parsed) :
    .unexpectedToken kind kind p ∈ parsed.errors ↔ kind = .semicolon ∧ c.HasCommentLoop p := by
  induction h with
  | finished => simp [not_hasCommentLoop_finish]
  | statement _ hs _ ih => rw [ih, hs.followsCleanly.hasCommentLoop_iff]
  | @failure c d e parsed _ he _ ih =>
    rw [List.mem_cons, ih]
    rcases he.accounts e rfl with ⟨hne, hd⟩ | ⟨u, q, hu, hloop, rfl, hd⟩
    · have hother : ParseError.unexpectedToken kind kind p ≠ e := fun heq ↦ hne ⟨kind, p, heq.symm⟩
      simp only [hother, false_or, hd.hasCommentLoop_iff]
    · rw [hu.hasCommentLoop_iff, hloop.hasCommentLoop_iff, hd.hasCommentLoop_iff]
      simp only [ParseError.unexpectedToken.injEq]
      constructor
      · rintro (⟨rfl, -, rfl⟩ | ⟨rfl, h⟩)
        · exact ⟨rfl, .inl rfl⟩
        · exact ⟨rfl, .inr h⟩
      · rintro ⟨rfl, rfl | h⟩
        · exact .inl ⟨rfl, rfl, rfl⟩
        · exact .inr ⟨rfl, h⟩

end Cursor

/-! ### Whole texts -/

/-- The errors of a text that require the kind of token they found are about the semicolons behind
comments that stand as the start of a loop. -/
theorem ofSource_contradicts_iff (source : String) (kind : Kind) (p : Position) :
    .unexpectedToken kind kind p ∈ (Parsed.ofSource source).errors ↔
      kind = .semicolon ∧
      ∃ (before : List Token) (t u v w : Token) (rest : List Token),
        Token.ofSource source = before ++ t :: u :: v :: w :: rest ∧ t.kind = .forWord ∧
        u.kind = .lparen ∧ v.kind = .comment ∧ w.kind = .semicolon ∧ p = w.position := by
  rw [(Cursor.readsTo_ofSource source).contradicts_iff, Cursor.hasCommentLoop_iff_rest]
  rfl

/-- A semicolon is refused because a semicolon is required. -/
theorem contradicts_commentStart : .unexpectedToken .semicolon .semicolon ⟨9, 2, 1⟩ ∈
    (Parsed.ofSource "for (# c\n;").errors := by
  decide +kernel

end Treewalk
