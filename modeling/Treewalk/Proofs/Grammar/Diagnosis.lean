import Treewalk.Proofs.Grammar.Termination
import Treewalk.Proofs.Token.Exactness
import Treewalk.Proofs.Token.Numerals

/-!
# Errors are about tokens, in the order of the text

A reader that fails names the place and the kind of a token that it has come to, and the cursor that
it leaves is not before this token (`Phrase.orderly_read`). Some errors are about the token that
comes next and others about the one that was just taken, so what is shown of a reader mentions two
cursors: where it is started, and the one from which on a token may be at fault (`Diagnoses`).

Every step of a run takes a token, and the tokens of a text stand one behind the other
(`Scanner.Munches.ordered`). So the statements of a run are at increasing places
(`Cursor.ReadsTo.statements_increase`), and the next error is at the place of the last one or behind
it (`Cursor.ReadsTo.errors_increase`). The scanner gives numbers only texts that can be read, which
leaves integers that are too large as the only wrong ones (`ParseError.Blames.reports`).
-/

set_option autoImplicit false
set_option relaxedAutoImplicit false

namespace Treewalk

/-! ### Cursors in one text -/

/-- The cursor is at the place of another one or further on in the same text. -/
def Cursor.Follows (d c : Cursor) : Prop :=
  d.rest <:+ c.rest ∧ d.finish = c.finish

namespace Cursor

variable {b c d : Cursor}

theorem Follows.refl (c : Cursor) : c.Follows c :=
  ⟨List.suffix_refl c.rest, rfl⟩

theorem Follows.trans (hd : d.Follows c) (hc : c.Follows b) : d.Follows b :=
  ⟨hd.1.trans hc.1, hd.2.trans hc.2⟩

theorem advance_follows (c : Cursor) : c.advance.Follows c :=
  ⟨List.tail_suffix c.rest, rfl⟩

end Cursor

/-! ### What errors are about -/

/-- The error is about this token: it gives its place and its kind, or the text of it that is no
number. -/
def ParseError.Blames : ParseError → Token → Prop
  | .unexpectedToken _ found p, t | .noExpression found p, t => p = t.position ∧ found = t.kind
  | .invalidInteger literal p, t => p = t.position ∧ t.kind = .int ∧ literal = t.literal ∧
      (Decimal.readInt? literal.toList).bind Word.ofInt? = none
  | .invalidFloat literal p, t => p = t.position ∧ t.kind = .float ∧ literal = t.literal ∧
      Decimal.readFloat? literal.toList = none

/-- The failure is about a token at or behind the cursor `c`, and `d` is not before this token. -/
def Failure.Blames (failure : Failure) (c d : Cursor) : Prop :=
  ∀ e, failure = .rejected e → ∃ u : Cursor, u.Follows c ∧ e.Blames u.next ∧ d.Follows u

variable {α β : Type}

/-- Started at `d`, the reader leaves a cursor that is not before `c`, or it fails because of a
token that is not before `c`. -/
def Diagnoses (m : Parser α) (c d : Cursor) : Prop :=
  Ensures m d (fun _ rest ↦ rest.Follows c) fun failure rest ↦ failure.Blames c rest

/-- Wherever it is started, the reader moves forward and fails only because of a token that it has
come to. -/
def Orderly (m : Parser α) : Prop :=
  ∀ c : Cursor, Diagnoses m c c

theorem Failure.Blames.of_follows {failure : Failure} {b c d : Cursor} (h : failure.Blames c d)
    (hc : c.Follows b) : failure.Blames b d := by
  intro e he
  obtain ⟨u, hu, hblames, hd⟩ := h e he
  exact ⟨u, hu.trans hc, hblames, hd⟩

theorem Orderly.diagnoses {m : Parser α} {c d : Cursor} (h : Orderly m) (hd : d.Follows c) :
    Diagnoses m c d :=
  (h d).imp (fun _ _ hr ↦ hr.trans hd) fun _ _ hf ↦ hf.of_follows hd

theorem Diagnoses.bind {m : Parser α} {f : α → Parser β} {c d : Cursor} (hm : Diagnoses m c d)
    (hf : ∀ a, Orderly (f a)) : Diagnoses (m >>= f) c d := by
  unfold Diagnoses
  rw [ensures_bind]
  exact hm.imp (fun a rest hr ↦ (hf a).diagnoses hr) fun _ _ hf ↦ hf

theorem Diagnoses.reject {e : ParseError} {c d : Cursor} (he : e.Blames c.next)
    (hd : d.Follows c) : Diagnoses (Parser.reject e : Parser α) c d := by
  rintro e' ⟨⟩
  exact ⟨c, .refl c, he, hd⟩

namespace Orderly

variable {m m' : Parser α} {f : α → Parser β}

protected theorem pure (a : α) : Orderly (pure a) :=
  fun c ↦ .refl c

theorem exhausted : Orderly (throw .exhausted : Parser α) := by
  rintro c e ⟨⟩

protected theorem bind (hm : Orderly m) (hf : ∀ a, Orderly (f a)) : Orderly (m >>= f) :=
  fun c ↦ (hm c).bind hf

protected theorem ite {p : Prop} [Decidable p] (hm : Orderly m) (hm' : Orderly m') :
    Orderly (if p then m else m') := by
  split
  · exact hm
  · exact hm'

theorem peek_bind {f : Token → Parser β} (hf : ∀ c : Cursor, Diagnoses (f c.next) c c) :
    Orderly (Parser.peek >>= f) :=
  hf

theorem take_bind {f : Token → Parser β} (hf : ∀ c : Cursor, Diagnoses (f c.next) c c.advance) :
    Orderly (Parser.take >>= f) :=
  hf

theorem peek : Orderly Parser.peek :=
  Cursor.Follows.refl

theorem take : Orderly Parser.take :=
  Cursor.advance_follows

theorem takeIf (k : Kind) : Orderly (Parser.takeIf k) := by
  have hpeek : Orderly (Parser.peekIs k) := fun c ↦ .refl c
  exact hpeek.bind fun _ ↦ .ite (take.bind fun _ ↦ .pure true) (.pure false)

theorem expect (k : Kind) : Orderly (Parser.expect k) := by
  refine peek_bind fun c ↦ ?_
  split
  · exact take c
  · exact .reject ⟨rfl, rfl⟩ (.refl c)

theorem binder : Orderly Parser.binder :=
  (expect .ident).bind fun _ ↦ .pure _

theorem optionalSemicolon : Orderly Parser.optionalSemicolon :=
  (takeIf .semicolon).bind fun _ ↦ .pure ()

end Orderly

/-! ### Readers -/

theorem diagnoses_integer {c : Cursor} (hk : c.next.kind = .int) :
    Diagnoses (Parser.integer c.next) c c.advance := by
  unfold Parser.integer
  split
  · exact (Orderly.pure _).diagnoses c.advance_follows
  · next hnone => exact .reject ⟨rfl, hk, rfl, hnone⟩ c.advance_follows

theorem diagnoses_float {c : Cursor} (hk : c.next.kind = .float) :
    Diagnoses (Parser.float c.next) c c.advance := by
  unfold Parser.float
  split
  · exact (Orderly.pure _).diagnoses c.advance_follows
  · next hnone => exact .reject ⟨rfl, hk, rfl, hnone⟩ c.advance_follows

theorem orderly_moreParameters (depth : Nat) : Orderly (Parser.moreParameters depth) := by
  induction depth with
  | zero => exact .exhausted
  | succ depth ih =>
    refine (Orderly.takeIf .comma).bind fun _ ↦ .ite ?_ ?_
    · exact Orderly.binder.bind fun _ ↦ ih.bind fun _ ↦ .pure _
    · exact (Orderly.expect .rparen).bind fun _ ↦ .pure _

theorem orderly_parameters (depth : Nat) : Orderly (Parser.parameters depth) := by
  refine (Orderly.takeIf .rparen).bind fun _ ↦ .ite (.pure _) ?_
  exact Orderly.binder.bind fun _ ↦ (orderly_moreParameters depth).bind fun _ ↦ .pure _

namespace Phrase

section Step

variable {depth : Nat} (ih : ∀ p : Phrase, Orderly (p.read depth))

include ih

theorem orderly_expression (level : Precedence) :
    Orderly (Parser.expression (depth + 1) level) := by
  rw [Parser.expression]
  exact (ih .operand).bind fun left ↦ ih (.operation level left)

theorem orderly_operand : Orderly (Parser.operand (depth + 1)) := by
  rw [Parser.operand]
  refine .take_bind fun c ↦ ?_
  -- Whatever is read behind the token moves on from there.
  have hnext : ∀ {m : Parser Expr}, Orderly m → Diagnoses m c c.advance :=
    fun h ↦ h.diagnoses c.advance_follows
  have hprefix : ∀ f : Expr → Expr,
      Diagnoses (Parser.expression depth .unary >>= fun e ↦ pure (f e)) c c.advance :=
    fun f ↦ hnext ((ih (.expression .unary)).bind fun e ↦ .pure (f e))
  cases hk : c.next.kind <;> dsimp only
  case ident => exact hnext (.pure _)
  case int => exact diagnoses_integer hk
  case float => exact diagnoses_float hk
  case str => exact hnext (.pure _)
  case trueWord => exact hnext (.pure _)
  case falseWord => exact hnext (.pure _)
  case bang => exact hprefix _
  case minus => exact hprefix _
  case tilde => exact hprefix _
  case increment => exact hprefix _
  case decrement => exact hprefix _
  case lparen =>
    refine hnext ((ih (.expression .lowest)).bind fun _ ↦ ?_)
    exact (Orderly.expect .rparen).bind fun _ ↦ .pure _
  case ifWord => exact hnext (ih (.conditional _))
  case fnWord =>
    refine hnext ((Orderly.expect .lparen).bind fun _ ↦ (orderly_parameters depth).bind fun _ ↦ ?_)
    exact (ih .block).bind fun _ ↦ .pure _
  case whileWord =>
    exact hnext ((ih (.expression .lowest)).bind fun _ ↦ (ih .block).bind fun _ ↦ .pure _)
  case forWord => exact hnext (ih (.forLoop _))
  case lbracket => exact hnext ((ih (.expressions _)).bind fun _ ↦ .pure _)
  case lbrace => exact hnext ((ih .pairs).bind fun _ ↦ .pure _)
  all_goals exact .reject ⟨rfl, hk.symm⟩ c.advance_follows

theorem orderly_operation (level : Precedence) (left : Expr) :
    Orderly (Parser.operation (depth + 1) level left) := by
  rw [Parser.operation]
  refine Orderly.peek.bind fun t ↦ .ite ?_ (.pure left)
  exact Orderly.take.bind fun _ ↦ (ih (.extension t left)).bind fun e ↦ ih (.operation level e)

theorem orderly_extension (t : Token) (left : Expr) :
    Orderly (Parser.extension (depth + 1) t left) := by
  have hexpression : ∀ (level : Precedence) (f : Expr → Expr),
      Orderly (Parser.expression depth level >>= fun e ↦ pure (f e)) :=
    fun level f ↦ (ih (.expression level)).bind fun e ↦ .pure (f e)
  rw [Parser.extension]
  cases t.kind <;> dsimp only [BinaryOperator.ofKind?]
  case lparen => exact (ih (.expressions .rparen)).bind fun _ ↦ .pure _
  case lbracket => exact ih (.subscript _ left)
  all_goals first
    | exact .pure _
    | exact hexpression _ _

theorem orderly_subscript (position : Position) (target : Expr) :
    Orderly (Parser.subscript (depth + 1) position target) := by
  have hend : ∀ f : Option Expr → Expr,
      Orderly (Parser.sliceEnd depth >>= fun stop ↦ pure (f stop)) :=
    fun f ↦ (ih .sliceEnd).bind fun stop ↦ .pure (f stop)
  rw [Parser.subscript]
  refine (Orderly.takeIf .colon).bind fun _ ↦ .ite (hend _) ?_
  refine (ih (.expression .lowest)).bind fun first ↦ (Orderly.takeIf .colon).bind fun _ ↦ ?_
  exact .ite (hend _) ((Orderly.expect .rbracket).bind fun _ ↦ .pure _)

theorem orderly_sliceEnd : Orderly (Parser.sliceEnd (depth + 1)) := by
  rw [Parser.sliceEnd]
  refine (Orderly.takeIf .rbracket).bind fun _ ↦ .ite (.pure none) ?_
  exact (ih (.expression .lowest)).bind fun stop ↦
    (Orderly.expect .rbracket).bind fun _ ↦ .pure (some stop)

theorem orderly_conditional (position : Position) :
    Orderly (Parser.conditional (depth + 1) position) := by
  rw [Parser.conditional]
  refine (ih (.expression .lowest)).bind fun condition ↦ (ih .block).bind fun consequence ↦ ?_
  refine (Orderly.takeIf .elseWord).bind fun _ ↦ .ite ?_ (.pure _)
  refine Orderly.peek.bind fun t ↦ .ite ?_ ((ih .block).bind fun _ ↦ .pure _)
  exact Orderly.take.bind fun _ ↦ (ih (.conditional t.position)).bind fun _ ↦ .pure _

theorem orderly_forLoop (position : Position) : Orderly (Parser.forLoop (depth + 1) position) := by
  have hrest : ∀ start : Stmt, Orderly (do
      let _ ← Parser.take
      let condition ← Parser.expression depth .lowest
      let _ ← Parser.expect .semicolon
      let advance ← Parser.statement depth
      let _ ← Parser.expect .rparen
      return Expr.forLoop position start condition advance (← Parser.block depth)) := by
    intro start
    refine Orderly.take.bind fun _ ↦ (ih (.expression .lowest)).bind fun condition ↦ ?_
    refine (Orderly.expect .semicolon).bind fun _ ↦ (ih .statement).bind fun advance ↦ ?_
    exact (Orderly.expect .rparen).bind fun _ ↦ (ih .block).bind fun _ ↦ .pure _
  rw [Parser.forLoop]
  refine (Orderly.expect .lparen).bind fun _ ↦ (ih .bareStatement).bind fun start ↦ ?_
  refine .peek_bind fun c ↦ ?_
  split
  · exact hrest start c
  · exact .reject ⟨rfl, rfl⟩ (.refl c)

theorem orderly_expressions (closing : Kind) :
    Orderly (Parser.expressions (depth + 1) closing) := by
  rw [Parser.expressions]
  refine (Orderly.takeIf closing).bind fun _ ↦ .ite (.pure []) ?_
  exact (ih (.expression .lowest)).bind fun _ ↦ (ih (.moreExpressions closing)).bind fun _ ↦ .pure _

theorem orderly_moreExpressions (closing : Kind) :
    Orderly (Parser.moreExpressions (depth + 1) closing) := by
  rw [Parser.moreExpressions]
  refine (Orderly.takeIf .comma).bind fun _ ↦ .ite ?_ ?_
  · exact (ih (.expression .lowest)).bind fun _ ↦
      (ih (.moreExpressions closing)).bind fun _ ↦ .pure _
  · exact (Orderly.expect closing).bind fun _ ↦ .pure []

theorem orderly_pairs : Orderly (Parser.pairs (depth + 1)) := by
  rw [Parser.pairs]
  refine (Orderly.takeIf .rbrace).bind fun _ ↦ .ite (.pure []) ?_
  refine (ih (.expression .lowest)).bind fun key ↦ (Orderly.expect .colon).bind fun _ ↦ ?_
  refine (ih (.expression .lowest)).bind fun value ↦ (Orderly.takeIf .rbrace).bind fun _ ↦ ?_
  exact .ite (.pure _) ((Orderly.expect .comma).bind fun _ ↦ (ih .pairs).bind fun _ ↦ .pure _)

theorem orderly_block : Orderly (Parser.block (depth + 1)) := by
  rw [Parser.block]
  exact (Orderly.expect .lbrace).bind fun _ ↦ (ih .statements).bind fun _ ↦ .pure _

theorem orderly_statements : Orderly (Parser.statements (depth + 1)) := by
  rw [Parser.statements]
  refine .peek_bind fun c ↦ ?_
  split
  · exact (Orderly.take.bind fun _ ↦ .pure _) c
  split
  · next heof => exact .reject ⟨rfl, heof.symm⟩ (.refl c)
  · exact ((ih .statement).bind fun _ ↦ (ih .statements).bind fun _ ↦ .pure _) c

theorem orderly_statement : Orderly (Parser.statement (depth + 1)) := by
  rw [Parser.statement]
  refine (ih .bareStatement).bind fun s ↦ .ite (.pure s) ?_
  exact Orderly.optionalSemicolon.bind fun _ ↦ .pure s

theorem orderly_bareStatement : Orderly (Parser.bareStatement (depth + 1)) := by
  have hexpression : ∀ f : Expr → Stmt,
      Orderly (Parser.expression depth .lowest >>= fun e ↦ pure (f e)) :=
    fun f ↦ (ih (.expression .lowest)).bind fun e ↦ .pure (f e)
  have hassign : ∀ f : Expr → Stmt, Orderly (do
      let _ ← Parser.expect .assign
      return f (← Parser.expression depth .lowest)) :=
    fun f ↦ (Orderly.expect .assign).bind fun _ ↦ hexpression f
  rw [Parser.bareStatement]
  refine Orderly.peek.bind fun t ↦ ?_
  split
  · refine Orderly.take.bind fun _ ↦ Orderly.binder.bind fun name ↦ ?_
    refine (Orderly.takeIf .lbracket).bind fun _ ↦ .ite ?_ (hassign _)
    exact (ih (.expression .lowest)).bind fun key ↦
      (Orderly.expect .rbracket).bind fun _ ↦ hassign _
  · exact Orderly.take.bind fun _ ↦ hexpression _
  · exact Orderly.take.bind fun _ ↦ .pure _
  · exact hexpression _

end Step

/-- Every reader moves forward and fails only because of a token that it has come to. -/
theorem orderly_read (depth : Nat) (p : Phrase) : Orderly (p.read depth) := by
  induction depth generalizing p with
  | zero =>
    cases p with
    | parameters => exact orderly_parameters 0
    | _ => exact .exhausted
  | succ depth ih =>
    cases p with
    | parameters => exact orderly_parameters (depth + 1)
    | moreParameters => exact orderly_moreParameters (depth + 1)
    | expression level => exact orderly_expression ih level
    | operand => exact orderly_operand ih
    | operation level left => exact orderly_operation ih level left
    | extension t left => exact orderly_extension ih t left
    | subscript position target => exact orderly_subscript ih position target
    | sliceEnd => exact orderly_sliceEnd ih
    | conditional position => exact orderly_conditional ih position
    | forLoop position => exact orderly_forLoop ih position
    | expressions closing => exact orderly_expressions ih closing
    | moreExpressions closing => exact orderly_moreExpressions ih closing
    | pairs => exact orderly_pairs ih
    | block => exact orderly_block ih
    | statements => exact orderly_statements ih
    | statement => exact orderly_statement ih
    | bareStatement => exact orderly_bareStatement ih

end Phrase

/-! ### The order of the text -/

theorem Scanner.Munches.offset_le {p : Position} {text : List Char} {ts : List Token}
    (h : Munches p text ts) :
    ∀ t ∈ ts ++ [Token.finish (p.after text)], p.offset ≤ t.position.offset := by
  intro t ht
  rcases List.mem_append.mp ht with ht | ht
  · obtain ⟨before, -, -, hposition⟩ := h.exists_before ht
    rw [hposition]
    exact offset_le_after p before
  · rw [List.mem_singleton.mp ht]
    exact offset_le_after p text

/-- Tokens stand one behind the other, and before the end of the text. -/
theorem Scanner.Munches.ordered {p : Position} {text : List Char} {ts : List Token}
    (h : Munches p text ts) : (ts ++ [Token.finish (p.after text)]).Pairwise
      fun t u ↦ t.position.offset < u.position.offset := by
  induction h with
  | done => exact List.pairwise_singleton _ _
  | @skip p span rest text ts hnext _ ih =>
    rwa [← Position.after_append, hnext.split] at ih
  | @token p k span rest text ts hnext hrest ih =>
    have hspan : p.offset < (p.after span).offset := by
      obtain ⟨c, cs, rfl⟩ := List.exists_cons_of_ne_nil hnext.span_ne_nil
      exact Nat.lt_of_lt_of_le (offset_lt_advance p c) (offset_le_after _ cs)
    have hbehind := hrest.offset_le
    rw [← Position.after_append, hnext.split] at ih hbehind
    refine List.pairwise_cons.mpr ⟨fun t ht ↦ ?_, ih⟩
    exact Nat.lt_of_lt_of_le hspan (hbehind t ht)

namespace Cursor

/-- The tokens that reading on and on from the cursor shows, with the end of the text once. -/
def stream (c : Cursor) : List Token :=
  c.rest ++ [Token.finish c.finish]

/-- The tokens from the cursor on are in the order of their places. -/
def Ordered (c : Cursor) : Prop :=
  c.stream.Pairwise fun t u ↦ t.position.offset < u.position.offset

theorem ordered_ofSource (source : String) : (Cursor.ofSource source).Ordered :=
  (Scanner.munches_tokensFrom Position.start source.toList).ordered

variable {c d : Cursor}

theorem next_mem_stream (c : Cursor) : c.next ∈ c.stream := by
  obtain ⟨rest, finish⟩ := c
  cases rest <;> simp [next, stream]

theorem Follows.stream_suffix (h : d.Follows c) : d.stream <:+ c.stream := by
  obtain ⟨before, hrest⟩ := h.1
  refine ⟨before, ?_⟩
  rw [stream, stream, ← hrest, h.2, List.append_assoc]

theorem Ordered.of_follows (hc : c.Ordered) (h : d.Follows c) : d.Ordered :=
  hc.sublist h.stream_suffix.sublist

theorem Ordered.lt (hc : c.Ordered) (hne : c.rest ≠ []) (h : d.Follows c.advance) :
    c.next.position.offset < d.next.position.offset := by
  obtain ⟨rest, finish⟩ := c
  obtain ⟨t, rest, rfl⟩ := List.exists_cons_of_ne_nil hne
  exact (List.pairwise_cons.mp hc).1 d.next (h.stream_suffix.subset d.next_mem_stream)

theorem Ordered.le (hc : c.Ordered) (h : d.Follows c) :
    c.next.position.offset ≤ d.next.position.offset := by
  obtain ⟨rest, finish⟩ := c
  obtain ⟨rest', finish'⟩ := d
  obtain ⟨hrest, rfl⟩ := h
  cases rest with
  | nil =>
    obtain rfl := List.suffix_nil.mp hrest
    exact Nat.le_refl _
  | cons t rest =>
    rcases List.suffix_cons_iff.mp hrest with rfl | hrest
    · exact Nat.le_refl _
    · exact Nat.le_of_lt (hc.lt (List.cons_ne_nil t rest) ⟨hrest, rfl⟩)

end Cursor

/-! ### Runs -/

/-- A statement is where its first token is. -/
theorem Reads.position_statement {ts ts' : List Token} {s : Stmt} (h : Reads .statement ts s ts') :
    ∃ t rest, ts = t :: rest ∧ s.position = t.position := by
  have hbare : ∀ {ts'}, Reads .bareStatement ts s ts' →
      ∃ t rest, ts = t :: rest ∧ s.position = t.position := by
    rintro _ (_ | _)
    all_goals exact ⟨_, _, rfl, rfl⟩
  cases h with
  | commentStatement hs | closedStatement hs | openStatement hs => exact hbare hs

namespace Cursor.Gives

variable {c d : Cursor}

theorem of_statement {s : Stmt} (h : c.Gives (.ok s d)) :
    d.Follows c.advance ∧ s.position = c.next.position := by
  obtain ⟨depth, hdepth⟩ := h
  have hs := hdepth depth (Nat.le_refl depth)
  have ⟨hfinish, hreads⟩ :=
    (Phrase.sound_read depth .statement trivial c.rest c.finish).of_ok hs
  obtain ⟨t, rest, hrest, hposition⟩ := Reads.position_statement hreads
  refine ⟨⟨(Takes.statement depth c).of_ok hs, hfinish⟩, ?_⟩
  rw [hposition, next, hrest, List.headD_cons]

theorem of_failure {e : ParseError} (h : c.Gives (.error (.rejected e) d)) :
    d.Follows c.advance ∧ ∃ u : Cursor, u.Follows c ∧ e.Blames u.next ∧ d.Follows u := by
  obtain ⟨depth, hdepth⟩ := h
  have he := hdepth depth (Nat.le_refl depth)
  obtain ⟨u, hu, hblames, hd⟩ := (Phrase.orderly_read depth .statement c).of_error he e rfl
  refine ⟨⟨(Takes.statement depth c).of_error he (by simp), ?_⟩, u, hu, hblames, hd⟩
  exact hd.2.trans hu.2

end Cursor.Gives

theorem ParseError.Blames.position_eq {e : ParseError} {t : Token} (h : e.Blames t) :
    e.position = t.position := by
  cases e <;> exact h.1

namespace Cursor.ReadsTo

variable {c : Cursor} {parsed : Parsed}

/-- Every step of a run takes a token. -/
theorem length_le (h : c.ReadsTo parsed) :
    parsed.program.length + parsed.errors.length ≤ c.rest.length := by
  have hless : ∀ {c d : Cursor}, c.rest ≠ [] → d.Follows c.advance →
      d.rest.length + 1 ≤ c.rest.length := by
    intro c d hne hd
    have hlength : d.rest.length ≤ c.rest.tail.length := hd.1.length_le
    have hpos := List.length_pos_iff.mpr hne
    rw [List.length_tail] at hlength
    omega
  induction h with
  | finished => exact Nat.le_refl 0
  | statement hne hs _ ih =>
    have := hless hne hs.of_statement.1
    simp only [List.length_cons]
    omega
  | failure hne he _ ih =>
    have := hless hne he.of_failure.1
    simp only [List.length_cons]
    omega

theorem exists_statement_at (h : c.ReadsTo parsed) {s : Stmt} (hs : s ∈ parsed.program) :
    ∃ u : Cursor, u.Follows c ∧ s.position = u.next.position := by
  induction h with
  | finished => cases hs
  | @statement c d first parsed _ hfirst _ ih =>
    obtain ⟨hd, hposition⟩ := hfirst.of_statement
    rcases List.mem_cons.mp hs with rfl | hs
    · exact ⟨c, .refl c, hposition⟩
    · obtain ⟨u, hu, hs⟩ := ih hs
      exact ⟨u, hu.trans (hd.trans c.advance_follows), hs⟩
  | @failure c d e parsed _ he _ ih =>
    obtain ⟨u, hu, hs⟩ := ih hs
    exact ⟨u, hu.trans (he.of_failure.1.trans c.advance_follows), hs⟩

theorem exists_blamed (h : c.ReadsTo parsed) {e : ParseError} (he : e ∈ parsed.errors) :
    ∃ u : Cursor, u.Follows c ∧ e.Blames u.next := by
  induction h with
  | finished => cases he
  | @statement c d s parsed _ hs _ ih =>
    obtain ⟨u, hu, he⟩ := ih he
    exact ⟨u, hu.trans (hs.of_statement.1.trans c.advance_follows), he⟩
  | @failure c d first parsed _ hfirst _ ih =>
    obtain ⟨hd, u, hu, hblames, -⟩ := hfirst.of_failure
    rcases List.mem_cons.mp he with rfl | he
    · exact ⟨u, hu, hblames⟩
    · obtain ⟨v, hv, he⟩ := ih he
      exact ⟨v, hv.trans (hd.trans c.advance_follows), he⟩

/-- Each statement starts behind the one before it. -/
theorem statements_increase (h : c.ReadsTo parsed) (hc : c.Ordered) :
    parsed.program.Pairwise fun s s' ↦ s.position.offset < s'.position.offset := by
  induction h with
  | finished => exact .nil
  | @statement c d s parsed hne hs h ih =>
    obtain ⟨hd, hposition⟩ := hs.of_statement
    refine List.pairwise_cons.mpr ⟨fun s' hs' ↦ ?_, ih (hc.of_follows (hd.trans c.advance_follows))⟩
    obtain ⟨u, hu, hs'⟩ := h.exists_statement_at hs'
    rw [hposition, hs']
    exact hc.lt hne (hu.trans hd)
  | @failure c d e parsed _ he _ ih =>
    exact ih (hc.of_follows (he.of_failure.1.trans c.advance_follows))

/-- Each error is about the token of the one before it or about a later one, because the next
statement does not start before the token that is at fault. -/
theorem errors_increase (h : c.ReadsTo parsed) (hc : c.Ordered) :
    parsed.errors.Pairwise fun e e' ↦ e.position.offset ≤ e'.position.offset := by
  induction h with
  | finished => exact .nil
  | @statement c d s parsed _ hs _ ih =>
    exact ih (hc.of_follows (hs.of_statement.1.trans c.advance_follows))
  | @failure c d e parsed hne he h ih =>
    obtain ⟨hd, u, hu, hblames, hdu⟩ := he.of_failure
    refine List.pairwise_cons.mpr ⟨fun e' he' ↦ ?_, ih (hc.of_follows (hd.trans c.advance_follows))⟩
    obtain ⟨v, hv, hblames'⟩ := h.exists_blamed he'
    rw [hblames.position_eq, hblames'.position_eq]
    exact (hc.of_follows hu).le (hv.trans hdu)

end Cursor.ReadsTo

/-! ### Whole texts -/

/-- The error is at the place of the token and gives its kind. An integer can only be too large to
be a word, and a float cannot be wrong. -/
def ParseError.Reports (e : ParseError) (t : Token) : Prop :=
  e.position = t.position ∧
    match e with
    | .unexpectedToken _ found _ | .noExpression found _ => found = t.kind
    | .invalidInteger literal _ => t.kind = .int ∧ literal = t.literal ∧
        0x7fffffffffffffff < Decimal.digitsValue literal.toList
    | .invalidFloat _ _ => False

theorem ParseError.Blames.reports {source : String} {e : ParseError} {t : Token} (h : e.Blames t)
    (ht : t ∈ (Cursor.ofSource source).stream) : e.Reports t := by
  -- The end of the text is no number.
  have hmem : t.kind ≠ .eof → t ∈ Token.ofSource source := by
    intro hk
    rcases List.mem_append.mp ht with ht | ht
    · exact ht
    · rw [List.mem_singleton.mp ht] at hk
      exact absurd rfl hk
  refine ⟨h.position_eq, ?_⟩
  cases e with
  | unexpectedToken expected found p => exact h.2
  | noExpression found p => exact h.2
  | invalidInteger literal p =>
    obtain ⟨-, hk, rfl, hnone⟩ := h
    rw [Token.readInt?_literal (hmem (by simp [hk])) hk, Option.bind_some,
      Word.ofInt?_eq_none_iff, Word.Fits] at hnone
    exact ⟨hk, rfl, by omega⟩
  | invalidFloat literal p =>
    obtain ⟨-, hk, rfl, hnone⟩ := h
    obtain ⟨x, hx⟩ := Token.exists_readFloat?_literal (hmem (by simp [hk])) hk
    simp [hx] at hnone

/-- Reading a text ends, with no more statements and errors than there are tokens. Both are in the
order of the text, and every error is about a token or the end. -/
theorem ofSource_reports (source : String) :
    (Cursor.ofSource source).ReadsTo (Parsed.ofSource source) ∧
      (Parsed.ofSource source).program.length + (Parsed.ofSource source).errors.length ≤
        (Token.ofSource source).length ∧
      ((Parsed.ofSource source).program.Pairwise
        fun s s' ↦ s.position.offset < s'.position.offset) ∧
      ((Parsed.ofSource source).errors.Pairwise
        fun e e' ↦ e.position.offset ≤ e'.position.offset) ∧
      ∀ e ∈ (Parsed.ofSource source).errors,
        ∃ t ∈ Token.ofSource source ++ [Token.finish (Position.ofEnd source)], e.Reports t := by
  have hreads := Cursor.readsTo_ofSource source
  have hordered := Cursor.ordered_ofSource source
  refine ⟨hreads, hreads.length_le, hreads.statements_increase hordered,
    hreads.errors_increase hordered, fun e he ↦ ?_⟩
  obtain ⟨u, hu, hblames⟩ := hreads.exists_blamed he
  have hmem := hu.stream_suffix.subset u.next_mem_stream
  exact ⟨u.next, hmem, hblames.reports hmem⟩

end Treewalk
