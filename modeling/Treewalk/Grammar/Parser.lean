import Treewalk.Decimal.Reading
import Treewalk.Grammar.Cursor
import Treewalk.Grammar.Precedence
import Treewalk.Tree.Basic

/-!
# From tokens to trees

A reader for each part of the grammar. `expression` reads an operand and then, as long as the next
token binds more tightly than the given level, the operator and the rest of its operation; the right
operand of a binary operator is read at the operator's own level, so operators of one level group to
the left.

Every reader takes a bound on its depth, one less at each nested reader. A reader takes at least one
token every few nested calls, so `depthFor` is a bound that no text exceeds. A statement that cannot
be read is dropped and its error kept; reading goes on where it stopped.
-/

set_option autoImplicit false
set_option relaxedAutoImplicit false

namespace Treewalk

namespace Parser

/-- The integer that a token of digits denotes. -/
def integer (t : Token) : Parser Expr :=
  match (Decimal.readInt? t.literal.toList).bind Word.ofInt? with
  | some value => return .int t.position value
  | none => reject (.invalidInteger t.literal t.position)

/-- The float that a token denotes. -/
def float (t : Token) : Parser Expr :=
  match Decimal.readFloat? t.literal.toList with
  | some value => return .float t.position value
  | none => reject (.invalidFloat t.literal t.position)

/-- A name that is introduced here. -/
def binder : Parser Name := do
  let t ← expect .ident
  return ⟨t.literal, t.position⟩

/-- The parameters after the first, and the closing bracket. -/
def moreParameters : Nat → Parser (List Name)
  | 0 => throw .exhausted
  | depth + 1 => do
    if ← takeIf .comma then
      let name ← binder
      return name :: (← moreParameters depth)
    else
      let _ ← expect .rparen
      return []

/-- A parameter list after its opening bracket. -/
def parameters (depth : Nat) : Parser (List Name) := do
  if ← takeIf .rparen then return []
  else
    let name ← binder
    return name :: (← moreParameters depth)

/-- The semicolon that may end a statement. -/
def optionalSemicolon : Parser Unit := do
  let _ ← takeIf .semicolon
  return ()

mutual

/-- An expression whose operators bind more tightly than `level`. -/
def expression : Nat → Precedence → Parser Expr
  | 0, _ => throw .exhausted
  | depth + 1, level => do
    let left ← operand depth
    operation depth level left

/-- What starts an expression. -/
def operand : Nat → Parser Expr
  | 0 => throw .exhausted
  | depth + 1 => do
    let t ← take
    match t.kind with
    | .ident => return .name t.position t.literal
    | .int => integer t
    | .float => float t
    | .str => return .str t.position t.literal
    | .trueWord => return .bool t.position true
    | .falseWord => return .bool t.position false
    | .bang => return .unary t.position .not (← expression depth .unary)
    | .minus => return .unary t.position .negate (← expression depth .unary)
    | .tilde => return .unary t.position .complement (← expression depth .unary)
    | .increment => return .step t.position .up .before (← expression depth .unary)
    | .decrement => return .step t.position .down .before (← expression depth .unary)
    | .lparen =>
      let inner ← expression depth .lowest
      let _ ← expect .rparen
      return inner
    | .ifWord => conditional depth t.position
    | .fnWord =>
      let _ ← expect .lparen
      let names ← parameters depth
      return .function t.position names (← block depth)
    | .whileWord =>
      let condition ← expression depth .lowest
      return .whileLoop t.position condition (← block depth)
    | .forWord => forLoop depth t.position
    | .lbracket => return .array t.position (← expressions depth .rbracket)
    | .lbrace => return .hash t.position (← pairs depth)
    | kind => reject (.noExpression kind t.position)

/-- Goes on with the expression `left` while the next token binds more tightly than `level`. -/
def operation : Nat → Precedence → Expr → Parser Expr
  | 0, _, _ => throw .exhausted
  | depth + 1, level, left => do
    let t ← peek
    if level < Precedence.of t.kind then
      let _ ← take
      operation depth level (← extension depth t left)
    else return left

/-- The operation that the token `t` makes of the expression before it. -/
def extension : Nat → Token → Expr → Parser Expr
  | 0, _, _ => throw .exhausted
  | depth + 1, t, left =>
    match t.kind with
    | .lparen => return .call t.position left (← expressions depth .rparen)
    | .lbracket => subscript depth t.position left
    | .increment => return .step t.position .up .after left
    | .decrement => return .step t.position .down .after left
    | .range => return .range t.position .inclusive left (← expression depth .range)
    | .exclusiveRange => return .range t.position .exclusive left (← expression depth .range)
    | kind =>
      match BinaryOperator.ofKind? kind with
      | some operator =>
        return .binary t.position operator left (← expression depth (Precedence.of kind))
      | none => return left

/-- An index or a slice after its opening bracket. -/
def subscript : Nat → Position → Expr → Parser Expr
  | 0, _, _ => throw .exhausted
  | depth + 1, position, target => do
    if ← takeIf .colon then
      return .slice position target none (← sliceEnd depth)
    else
      let first ← expression depth .lowest
      if ← takeIf .colon then
        return .slice position target (some first) (← sliceEnd depth)
      else
        let _ ← expect .rbracket
        return .index position target first

/-- The end of a slice after the colon, which may be missing, and the closing bracket. -/
def sliceEnd : Nat → Parser (Option Expr)
  | 0 => throw .exhausted
  | depth + 1 => do
    if ← takeIf .rbracket then return none
    else
      let stop ← expression depth .lowest
      let _ ← expect .rbracket
      return some stop

/-- A conditional after its first word. A chained one is the only statement of the other branch. -/
def conditional : Nat → Position → Parser Expr
  | 0, _ => throw .exhausted
  | depth + 1, position => do
    let condition ← expression depth .lowest
    let consequence ← block depth
    if ← takeIf .elseWord then
      let t ← peek
      if t.kind = .ifWord then
        let _ ← take
        let chained ← conditional depth t.position
        return .conditional position condition consequence
          (some (.mk t.position [.expr t.position chained]))
      else
        return .conditional position condition consequence (some (← block depth))
    else
      return .conditional position condition consequence none

/-- A loop with a start, a condition and an advance, after its first word. The semicolon after the
start is the one that ends it as a statement, so a comment cannot stand there. -/
def forLoop : Nat → Position → Parser Expr
  | 0, _ => throw .exhausted
  | depth + 1, position => do
    let _ ← expect .lparen
    let start ← bareStatement depth
    let t ← peek
    if t.kind = .semicolon && !start.isComment then
      let _ ← take
      let condition ← expression depth .lowest
      let _ ← expect .semicolon
      let advance ← statement depth
      let _ ← expect .rparen
      return .forLoop position start condition advance (← block depth)
    else reject (.unexpectedToken .semicolon t.kind t.position)

/-- Expressions separated by commas up to a closing bracket. -/
def expressions : Nat → Kind → Parser (List Expr)
  | 0, _ => throw .exhausted
  | depth + 1, closing => do
    if ← takeIf closing then return []
    else
      let first ← expression depth .lowest
      return first :: (← moreExpressions depth closing)

/-- The expressions after the first, and the closing bracket. -/
def moreExpressions : Nat → Kind → Parser (List Expr)
  | 0, _ => throw .exhausted
  | depth + 1, closing => do
    if ← takeIf .comma then
      let next ← expression depth .lowest
      return next :: (← moreExpressions depth closing)
    else
      let _ ← expect closing
      return []

/-- Keys with their values up to the closing brace. The last comma may stand before it. -/
def pairs : Nat → Parser (List (Expr × Expr))
  | 0 => throw .exhausted
  | depth + 1 => do
    if ← takeIf .rbrace then return []
    else
      let key ← expression depth .lowest
      let _ ← expect .colon
      let value ← expression depth .lowest
      if ← takeIf .rbrace then return [(key, value)]
      else
        let _ ← expect .comma
        return (key, value) :: (← pairs depth)

/-- A block in braces. -/
def block : Nat → Parser Block
  | 0 => throw .exhausted
  | depth + 1 => do
    let t ← expect .lbrace
    return .mk t.position (← statements depth)

/-- The statements of a block and the closing brace. -/
def statements : Nat → Parser (List Stmt)
  | 0 => throw .exhausted
  | depth + 1 => do
    let t ← peek
    if t.kind = .rbrace then
      let _ ← take
      return []
    else if t.kind = .eof then reject (.unexpectedToken .rbrace .eof t.position)
    else
      let first ← statement depth
      return first :: (← statements depth)

/-- A statement with the semicolon that may end it. -/
def statement : Nat → Parser Stmt
  | 0 => throw .exhausted
  | depth + 1 => do
    let s ← bareStatement depth
    if s.isComment then return s
    else
      optionalSemicolon
      return s

/-- A statement without the semicolon that may end it. -/
def bareStatement : Nat → Parser Stmt
  | 0 => throw .exhausted
  | depth + 1 => do
    let t ← peek
    match t.kind with
    | .letWord =>
      let _ ← take
      let name ← binder
      if ← takeIf .lbracket then
        let key ← expression depth .lowest
        let _ ← expect .rbracket
        let _ ← expect .assign
        return .store t.position name key (← expression depth .lowest)
      else
        let _ ← expect .assign
        return .bind t.position name (← expression depth .lowest)
    | .returnWord =>
      let _ ← take
      return .ret t.position (← expression depth .lowest)
    | .comment =>
      let _ ← take
      return .comment t.position t.literal
    | _ => return .expr t.position (← expression depth .lowest)

end

/-- A depth that reading so many tokens never exceeds. -/
def depthFor (tokens : Nat) : Nat :=
  8 * (tokens + 1)

end Parser

/-- What reading a source text gives: the statements that could be read, and an error for every one
that could not, both in the order of the text. -/
structure Parsed where
  program : Program
  errors : List ParseError
deriving Inhabited

namespace Parsed

/-- Reads statements until the text ends, at most `count` of them. -/
def ofCursor : Nat → Cursor → Parsed
  | 0, _ => ⟨[], []⟩
  | count + 1, c =>
    if c.rest.isEmpty then ⟨[], []⟩
    else
      match Parser.statement (Parser.depthFor c.rest.length) c with
      | .ok s rest =>
        let following := ofCursor count rest
        { following with program := s :: following.program }
      | .error (.rejected e) rest =>
        let following := ofCursor count rest
        { following with errors := e :: following.errors }
      | .error .exhausted _ => ⟨[], []⟩

/-- Reads a source text. Every statement takes at least one token. -/
def ofSource (source : String) : Parsed :=
  let c := Cursor.ofSource source
  ofCursor c.rest.length c

/-- The errors as they are reported for the named source. -/
def located (parsed : Parsed) (source : String) : List String :=
  parsed.errors.map (ParseError.located source)

end Parsed

end Treewalk
