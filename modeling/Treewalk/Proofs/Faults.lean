import Treewalk.Proofs.Eval.Checks
import Treewalk.Proofs.Grammar.Reading
import Treewalk.Proofs.Token.Columns

/-!
# No step relies on a check that fails

Three parts of the language rely on facts that hold elsewhere: the scanner on its line mark when it
counts columns, the reader on its table of handlers when it takes a token for an operator, and the
evaluator on the checks of `Checked`. `Checked.operation` is the reader's loop with its table and
with the arm for a token that is no operator written out. `no_fault` puts the three together.
-/

set_option autoImplicit false
set_option relaxedAutoImplicit false

namespace Treewalk

/-! ### Reading operators -/

/-- What goes on with an expression. -/
inductive Handler where
  | call
  | subscript
  | step
  | range
  | operator
deriving DecidableEq

namespace Handler

/-- The handler for a token, if it can go on with an expression. -/
def ofKind? (kind : Kind) : Option Handler :=
  match kind with
  | .lparen => some call
  | .lbracket => some subscript
  | .increment | .decrement => some step
  | .range | .exclusiveRange => some range
  | _ => if (BinaryOperator.ofKind? kind).isSome then some operator else none

/-- The operation that a handler reads after the token `t`. The handler for operators has to get a
token that is one. -/
def read (fault : Parser Expr) (t : Token) (left : Expr) : Handler → Nat → Parser Expr
  | _, 0 => throw .exhausted
  | call, depth + 1 => return .call t.position left (← Parser.expressions depth .rparen)
  | subscript, depth + 1 => Parser.subscript depth t.position left
  | step, _ + 1 => return .step t.position (if t.kind = .increment then .up else .down) .after left
  | range, depth + 1 =>
    return .range t.position (if t.kind = .range then .inclusive else .exclusive) left
      (← Parser.expression depth .range)
  | operator, depth + 1 =>
    match BinaryOperator.ofKind? t.kind with
    | some sign =>
      return .binary t.position sign left (← Parser.expression depth (Precedence.of t.kind))
    | none => fault

end Handler

/-- Goes on with the expression `left`, by the table of handlers. -/
def Checked.operation (fault : Parser Expr) (depth : Nat) (level : Precedence) (left : Expr) :
    Parser Expr := do
  let t ← Parser.peek
  if t.kind ≠ .semicolon ∧ level < Precedence.of t.kind then
    match Handler.ofKind? t.kind with
    | some handler =>
      let t ← Parser.take
      Parser.operation depth level (← handler.read fault t left depth)
    | none => return left
  else return left

theorem Handler.read_zero (fault : Parser Expr) (t : Token) (left : Expr) (handler : Handler) :
    handler.read fault t left 0 = Parser.extension 0 t left := by
  rw [Parser.extension]
  cases handler <;> rfl

theorem Handler.read_operator_eq (fault : Parser Expr) {t : Token}
    (ht : (BinaryOperator.ofKind? t.kind).isSome = true) (left : Expr) (depth : Nat) :
    Handler.ofKind? t.kind = some .operator ∧
      Handler.operator.read fault t left (depth + 1) = Parser.extension (depth + 1) t left := by
  rcases t with ⟨kind, literal, position⟩
  cases kind <;> first
    | exact ⟨rfl, rfl⟩
    | cases ht

theorem Handler.exists_read_succ_eq (fault : Parser Expr) {t : Token}
    (ht : Precedence.lowest < Precedence.of t.kind) (left : Expr) (depth : Nat) :
    ∃ handler, Handler.ofKind? t.kind = some handler ∧
      handler.read fault t left (depth + 1) = Parser.extension (depth + 1) t left := by
  have hgoes := Precedence.goesOn t.kind ht
  rcases t with ⟨kind, literal, position⟩
  rcases hgoes with h | h | h | h | h | h | h
  · obtain rfl : kind = .lparen := h
    exact ⟨.call, rfl, rfl⟩
  · obtain rfl : kind = .lbracket := h
    exact ⟨.subscript, rfl, rfl⟩
  · obtain rfl : kind = .increment := h
    exact ⟨.step, rfl, rfl⟩
  · obtain rfl : kind = .decrement := h
    exact ⟨.step, rfl, rfl⟩
  · obtain rfl : kind = .range := h
    exact ⟨.range, rfl, rfl⟩
  · obtain rfl : kind = .exclusiveRange := h
    exact ⟨.range, rfl, rfl⟩
  · exact ⟨.operator, Handler.read_operator_eq fault h left depth⟩

/-- A token that binds has a handler, and the handler knows what to do with it. -/
theorem Handler.exists_read_eq (fault : Parser Expr) {t : Token}
    (ht : Precedence.lowest < Precedence.of t.kind) (left : Expr) (depth : Nat) :
    ∃ handler, Handler.ofKind? t.kind = some handler ∧
      handler.read fault t left depth = Parser.extension depth t left := by
  cases depth with
  | succ depth => exact Handler.exists_read_succ_eq fault ht left depth
  | zero =>
    obtain ⟨handler, h, -⟩ := Handler.exists_read_succ_eq fault ht left 0
    exact ⟨handler, h, handler.read_zero fault t left⟩

theorem Precedence.lowest_lt_of_lt {p q : Precedence} (h : p < q) : .lowest < q :=
  Nat.lt_of_le_of_lt (Nat.zero_le p.rank) h

/-- The reader's loop goes by the table of handlers. -/
theorem Checked.operation_eq (fault : Parser Expr) (depth : Nat) (level : Precedence)
    (left : Expr) :
    Parser.operation (depth + 1) level left = Checked.operation fault depth level left := by
  funext c
  rw [Parser.operation, Checked.operation]
  simp only [run_bind, Parser.peek]
  by_cases hlevel : level < Precedence.of c.next.kind
  · have hsemicolon : c.next.kind ≠ .semicolon := by
      intro hk
      rw [hk] at hlevel
      exact absurd hlevel (Nat.not_lt_zero _)
    obtain ⟨handler, hhandler, hread⟩ :=
      Handler.exists_read_eq fault (Precedence.lowest_lt_of_lt hlevel) left depth
    rw [if_pos hlevel, if_pos ⟨hsemicolon, hlevel⟩, hhandler]
    simp only [run_bind, Parser.take, hread]
  · rw [if_neg hlevel, if_neg fun h ↦ hlevel h.2]

/-! ### Sources and stores -/

/-- Nothing that is done with a source relies on a check that fails. For each token and for the end,
the scanner counts its column in a part of the source that is there. The reader takes no token for
an operator that is none. Evaluation does not depend on what would happen after a failed check, in
any store. And a builtin that is called is one of the table, unless the store had another one from
the start. -/
theorem no_fault (source : String) :
    List.Forall₂ (Scanner.Locates source) (Scanner.lookups ⟨1, 0⟩ 0 source.toList)
      ((Token.ofSource source).map Token.position ++ [Position.ofEnd source]) ∧
    (∀ (fault : Parser Expr) (depth : Nat) (level : Precedence) (left : Expr),
      Parser.operation (depth + 1) level left = Checked.operation fault depth level left) ∧
    (∀ (fault : Eval Value) (depth : Nat) (scope : ScopeId) (e : Expr),
      Eval.expr Builtin.table (depth + 1) scope e =
        Checked.expr fault Builtin.table depth scope e) ∧
    (∀ (fault : Eval Unit) (depth : Nat) (scope : ScopeId) (statement : Stmt),
      Eval.stmt Builtin.table (depth + 1) scope statement =
        Checked.stmt fault Builtin.table depth scope statement) ∧
    ∀ (host : Builtin → Prop) (s t u : Store) (depth : Nat) (scope : ScopeId) (e : Expr)
      (b : Builtin), s.Holds (Value.BuiltinFrom host) →
      Visits Builtin.table (fun _ ↦ True) (fun _ ↦ True) s t →
      Eval.expr Builtin.table depth scope e t = .ok (.builtin b) u →
        b ∈ Builtin.table ∨ host b := by
  refine ⟨Scanner.forall₂_lookups_ofSource source, Checked.operation_eq, ?_, ?_, ?_⟩
  · intro fault depth scope e
    exact Checked.expr_eq fault Builtin.table depth scope e
  · intro fault depth scope statement
    exact Checked.stmt_eq fault Builtin.table depth scope statement
  · intro host s t u depth scope e b hs ht he
    exact ht.builtinFrom hs he

end Treewalk
