import Treewalk.Grammar.Parser

/-!
# Derivations

The grammar as a relation. `Reads p ts r ts'` says that the tokens `ts` start with a phrase `p` that
denotes `r` and that `ts'` is what follows it. There is one rule for each way in which a reader can
succeed, without the bound on its depth and without failure, so a fact about everything that can be
read is proved by one induction over these rules. `ReadsProgram` is the same for a whole text.

A phrase that goes on with an expression carries that expression, and one that starts after a word
has been taken carries the place of the word.
-/

set_option autoImplicit false
set_option relaxedAutoImplicit false

namespace Treewalk

/-- The parts of the grammar that have readers of their own. -/
inductive Phrase where
  | parameters
  | moreParameters
  | expression (level : Precedence)
  | operand
  | operation (level : Precedence) (left : Expr)
  | extension (t : Token) (left : Expr)
  | subscript (position : Position) (target : Expr)
  | sliceEnd
  | conditional (position : Position)
  | forLoop (position : Position)
  | expressions (closing : Kind)
  | moreExpressions (closing : Kind)
  | pairs
  | block
  | statements
  | statement
  | bareStatement

/-- What a phrase denotes. -/
@[reducible] def Phrase.Result : Phrase → Type
  | parameters | moreParameters => List Name
  | expression _ | operand | operation _ _ | extension _ _ | subscript _ _ => Expr
  | sliceEnd => Option Expr
  | conditional _ | forLoop _ => Expr
  | expressions _ | moreExpressions _ => List Expr
  | pairs => List (Expr × Expr)
  | block => Block
  | statements => List Stmt
  | statement | bareStatement => Stmt

/-- The kind of the next token, which is the end of the text when nothing is left. -/
def nextKind (ts : List Token) : Kind :=
  (ts.head?.map Token.kind).getD .eof

@[simp] theorem nextKind_nil : nextKind [] = .eof := rfl

@[simp] theorem nextKind_cons (t : Token) (ts : List Token) : nextKind (t :: ts) = t.kind := rfl

/-- The name that a token introduces. -/
def Token.binder (t : Token) : Name :=
  ⟨t.literal, t.position⟩

/-- The tokens `ts` start with a phrase that denotes `r`, and `ts'` follows it. -/
inductive Reads : (p : Phrase) → List Token → p.Result → List Token → Prop
  -- Parameters
  | noParameter {t ts} (ht : t.kind = .rparen) : Reads .parameters (t :: ts) [] ts
  | parameter {t ts names ts'} (ht : t.kind = .ident) (hs : Reads .moreParameters ts names ts') :
      Reads .parameters (t :: ts) (t.binder :: names) ts'
  | lastParameter {t ts} (ht : t.kind = .rparen) : Reads .moreParameters (t :: ts) [] ts
  | nextParameter {t u ts names ts'} (ht : t.kind = .comma) (hu : u.kind = .ident)
      (hs : Reads .moreParameters ts names ts') :
      Reads .moreParameters (t :: u :: ts) (u.binder :: names) ts'
  -- Operands
  | name {t ts} (ht : t.kind = .ident) : Reads .operand (t :: ts) (.name t.position t.literal) ts
  | int {t ts v} (ht : t.kind = .int)
      (hv : (Decimal.readInt? t.literal.toList).bind Word.ofInt? = some v) :
      Reads .operand (t :: ts) (.int t.position v) ts
  | float {t ts x} (ht : t.kind = .float) (hx : Decimal.readFloat? t.literal.toList = some x) :
      Reads .operand (t :: ts) (.float t.position x) ts
  | str {t ts} (ht : t.kind = .str) : Reads .operand (t :: ts) (.str t.position t.literal) ts
  | bool {t ts b} (ht : t.kind = if b then .trueWord else .falseWord) :
      Reads .operand (t :: ts) (.bool t.position b) ts
  | unary {t ts operator e ts'} (ht : UnaryOperator.ofKind? t.kind = some operator)
      (he : Reads (.expression .unary) ts e ts') :
      Reads .operand (t :: ts) (.unary t.position operator e) ts'
  | stepBefore {t ts direction e ts'} (ht : StepDirection.ofKind? t.kind = some direction)
      (he : Reads (.expression .unary) ts e ts') :
      Reads .operand (t :: ts) (.step t.position direction .before e) ts'
  | group {t ts e u ts'} (ht : t.kind = .lparen) (he : Reads (.expression .lowest) ts e (u :: ts'))
      (hu : u.kind = .rparen) : Reads .operand (t :: ts) e ts'
  | ifOperand {t ts e ts'} (ht : t.kind = .ifWord) (he : Reads (.conditional t.position) ts e ts') :
      Reads .operand (t :: ts) e ts'
  | function {t u ts names ts₁ b ts'} (ht : t.kind = .fnWord) (hu : u.kind = .lparen)
      (hn : Reads .parameters ts names ts₁) (hb : Reads .block ts₁ b ts') :
      Reads .operand (t :: u :: ts) (.function t.position names b) ts'
  | whileLoop {t ts c ts₁ b ts'} (ht : t.kind = .whileWord)
      (hc : Reads (.expression .lowest) ts c ts₁) (hb : Reads .block ts₁ b ts') :
      Reads .operand (t :: ts) (.whileLoop t.position c b) ts'
  | forOperand {t ts e ts'} (ht : t.kind = .forWord) (he : Reads (.forLoop t.position) ts e ts') :
      Reads .operand (t :: ts) e ts'
  | array {t ts es ts'} (ht : t.kind = .lbracket) (he : Reads (.expressions .rbracket) ts es ts') :
      Reads .operand (t :: ts) (.array t.position es) ts'
  | hash {t ts ps ts'} (ht : t.kind = .lbrace) (hp : Reads .pairs ts ps ts') :
      Reads .operand (t :: ts) (.hash t.position ps) ts'
  -- Operations
  | expression {level ts l ts₁ e ts'} (hl : Reads .operand ts l ts₁)
      (he : Reads (.operation level l) ts₁ e ts') : Reads (.expression level) ts e ts'
  | stop {level left ts} (hs : ¬ level < Precedence.of (nextKind ts)) :
      Reads (.operation level left) ts left ts
  | goOn {level left t ts e ts₁ r ts'} (ht : level < Precedence.of t.kind)
      (he : Reads (.extension t left) ts e ts₁) (hr : Reads (.operation level e) ts₁ r ts') :
      Reads (.operation level left) (t :: ts) r ts'
  | call {t left ts es ts'} (ht : t.kind = .lparen) (he : Reads (.expressions .rparen) ts es ts') :
      Reads (.extension t left) ts (.call t.position left es) ts'
  | element {t left ts e ts'} (ht : t.kind = .lbracket)
      (he : Reads (.subscript t.position left) ts e ts') : Reads (.extension t left) ts e ts'
  | stepAfter {t left ts direction} (ht : StepDirection.ofKind? t.kind = some direction) :
      Reads (.extension t left) ts (.step t.position direction .after left) ts
  | range {t left ts bound e ts'} (ht : RangeBound.ofKind? t.kind = some bound)
      (he : Reads (.expression .range) ts e ts') :
      Reads (.extension t left) ts (.range t.position bound left e) ts'
  | binary {t left ts operator e ts'} (ht : BinaryOperator.ofKind? t.kind = some operator)
      (he : Reads (.expression (Precedence.of t.kind)) ts e ts') :
      Reads (.extension t left) ts (.binary t.position operator left e) ts'
  -- Subscripts
  | sliceFromStart {position target t ts stop ts'} (ht : t.kind = .colon)
      (hs : Reads .sliceEnd ts stop ts') :
      Reads (.subscript position target) (t :: ts) (.slice position target none stop) ts'
  | slice {position target ts first t ts₁ stop ts'}
      (hf : Reads (.expression .lowest) ts first (t :: ts₁)) (ht : t.kind = .colon)
      (hs : Reads .sliceEnd ts₁ stop ts') :
      Reads (.subscript position target) ts (.slice position target (some first) stop) ts'
  | index {position target ts first t ts'}
      (hf : Reads (.expression .lowest) ts first (t :: ts')) (ht : t.kind = .rbracket) :
      Reads (.subscript position target) ts (.index position target first) ts'
  | noSliceEnd {t ts} (ht : t.kind = .rbracket) : Reads .sliceEnd (t :: ts) none ts
  | sliceEnd {ts e t ts'} (he : Reads (.expression .lowest) ts e (t :: ts'))
      (ht : t.kind = .rbracket) : Reads .sliceEnd ts (some e) ts'
  -- Conditionals and loops
  | onlyIf {position ts c ts₁ b ts'} (hc : Reads (.expression .lowest) ts c ts₁)
      (hb : Reads .block ts₁ b ts') (he : nextKind ts' ≠ .elseWord) :
      Reads (.conditional position) ts (.conditional position c b none) ts'
  | elseIf {position ts c ts₁ b t u ts₂ e ts'} (hc : Reads (.expression .lowest) ts c ts₁)
      (hb : Reads .block ts₁ b (t :: u :: ts₂)) (ht : t.kind = .elseWord) (hu : u.kind = .ifWord)
      (he : Reads (.conditional u.position) ts₂ e ts') :
      Reads (.conditional position) ts
        (.conditional position c b (some (.mk u.position [.expr u.position e]))) ts'
  | orElse {position ts c ts₁ b t ts₂ d ts'} (hc : Reads (.expression .lowest) ts c ts₁)
      (hb : Reads .block ts₁ b (t :: ts₂)) (ht : t.kind = .elseWord)
      (hd : Reads .block ts₂ d ts') :
      Reads (.conditional position) ts (.conditional position c b (some d)) ts'
  | forLoop {position t ts s u ts₁ c v ts₂ a w ts₃ b ts'} (ht : t.kind = .lparen)
      (hs : Reads .bareStatement ts s (u :: ts₁)) (hu : u.kind = .semicolon)
      (hn : s.isComment = false) (hc : Reads (.expression .lowest) ts₁ c (v :: ts₂))
      (hv : v.kind = .semicolon) (ha : Reads .statement ts₂ a (w :: ts₃)) (hw : w.kind = .rparen)
      (hb : Reads .block ts₃ b ts') :
      Reads (.forLoop position) (t :: ts) (.forLoop position s c a b) ts'
  -- Lists
  | noExpression {closing t ts} (ht : t.kind = closing) :
      Reads (.expressions closing) (t :: ts) [] ts
  | firstExpression {closing ts e ts₁ es ts'} (he : Reads (.expression .lowest) ts e ts₁)
      (hs : Reads (.moreExpressions closing) ts₁ es ts') :
      Reads (.expressions closing) ts (e :: es) ts'
  | lastExpression {closing t ts} (ht : t.kind = closing) :
      Reads (.moreExpressions closing) (t :: ts) [] ts
  | nextExpression {closing t ts e ts₁ es ts'} (ht : t.kind = .comma)
      (he : Reads (.expression .lowest) ts e ts₁)
      (hs : Reads (.moreExpressions closing) ts₁ es ts') :
      Reads (.moreExpressions closing) (t :: ts) (e :: es) ts'
  | noPair {t ts} (ht : t.kind = .rbrace) : Reads .pairs (t :: ts) [] ts
  | lastPair {ts k t ts₁ v u ts'} (hk : Reads (.expression .lowest) ts k (t :: ts₁))
      (ht : t.kind = .colon) (hv : Reads (.expression .lowest) ts₁ v (u :: ts'))
      (hu : u.kind = .rbrace) : Reads .pairs ts [(k, v)] ts'
  | nextPair {ts k t ts₁ v u ts₂ ps ts'} (hk : Reads (.expression .lowest) ts k (t :: ts₁))
      (ht : t.kind = .colon) (hv : Reads (.expression .lowest) ts₁ v (u :: ts₂))
      (hu : u.kind = .comma) (hp : Reads .pairs ts₂ ps ts') : Reads .pairs ts ((k, v) :: ps) ts'
  -- Statements
  | block {t ts ss ts'} (ht : t.kind = .lbrace) (hs : Reads .statements ts ss ts') :
      Reads .block (t :: ts) (.mk t.position ss) ts'
  | noStatement {t ts} (ht : t.kind = .rbrace) : Reads .statements (t :: ts) [] ts
  | nextStatement {ts s ts₁ ss ts'} (hs : Reads .statement ts s ts₁)
      (hr : Reads .statements ts₁ ss ts') : Reads .statements ts (s :: ss) ts'
  | commentStatement {ts s ts'} (hs : Reads .bareStatement ts s ts') (hc : s.isComment = true) :
      Reads .statement ts s ts'
  | closedStatement {ts s t ts'} (hs : Reads .bareStatement ts s (t :: ts'))
      (hc : s.isComment = false) (ht : t.kind = .semicolon) : Reads .statement ts s ts'
  | openStatement {ts s ts'} (hs : Reads .bareStatement ts s ts') (hc : s.isComment = false)
      (hn : nextKind ts' ≠ .semicolon) : Reads .statement ts s ts'
  | bind {t u v ts e ts'} (ht : t.kind = .letWord) (hu : u.kind = .ident) (hv : v.kind = .assign)
      (he : Reads (.expression .lowest) ts e ts') :
      Reads .bareStatement (t :: u :: v :: ts) (.bind t.position u.binder e) ts'
  | store {t u v ts k w x ts₁ e ts'} (ht : t.kind = .letWord) (hu : u.kind = .ident)
      (hv : v.kind = .lbracket) (hk : Reads (.expression .lowest) ts k (w :: x :: ts₁))
      (hw : w.kind = .rbracket) (hx : x.kind = .assign)
      (he : Reads (.expression .lowest) ts₁ e ts') :
      Reads .bareStatement (t :: u :: v :: ts) (.store t.position u.binder k e) ts'
  | ret {t ts e ts'} (ht : t.kind = .returnWord) (he : Reads (.expression .lowest) ts e ts') :
      Reads .bareStatement (t :: ts) (.ret t.position e) ts'
  | comment {t ts} (ht : t.kind = .comment) :
      Reads .bareStatement (t :: ts) (.comment t.position t.literal) ts
  | expr {t ts e ts'} (he : Reads (.expression .lowest) (t :: ts) e ts') :
      Reads .bareStatement (t :: ts) (.expr t.position e) ts'

/-- The tokens of a whole text are the statements of a program, one after the other. -/
inductive ReadsProgram : List Token → Program → Prop
  | nil : ReadsProgram [] []
  | cons {ts s ts' ss} (hs : Reads .statement ts s ts') (hr : ReadsProgram ts' ss) :
      ReadsProgram ts (s :: ss)

end Treewalk
