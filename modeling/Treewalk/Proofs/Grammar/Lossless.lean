import Mathlib.Data.List.Forall2
import Treewalk.Proofs.Grammar.Acceptance

/-!
# Reading loses nothing

The leaves of a tree, from left to right, are its words, names, literals, comments and operators,
each with its place. A token carries content when its kind is one that leaves stand for; the other
tokens of a program only separate and group (`Kind.isPunctuation`). When a text is read without
errors, its tokens with content are the leaves of the program, one for one and in the same order
(`forall₂_carries_leaves`).

The invariant of the proof is `Spells ts ls ts'`: the tokens between `ts` and `ts'` carry the leaves
`ls`. A phrase that goes on with an expression spells only the leaves that it adds, so
`Phrase.before` says which leaves of its result were there already.
-/

set_option autoImplicit false
set_option relaxedAutoImplicit false

namespace Treewalk

/-! ### Leaves -/

/-- What a leaf shows. -/
inductive Mark where
  | letWord
  | returnWord
  | ifWord
  | fnWord
  | whileWord
  | forWord
  | name (text : String)
  | int (value : Int64)
  | float (value : Float)
  | str (value : String)
  | bool (value : Bool)
  | comment (text : String)
  | unary (operator : UnaryOperator)
  | binary (operator : BinaryOperator)
  | step (direction : StepDirection)
  | range (bound : RangeBound)

/-- A leaf of a tree. -/
structure Leaf where
  position : Position
  mark : Mark

/-- The leaf of a name where it is introduced. -/
def Name.leaf (n : Name) : Leaf :=
  ⟨n.position, .name n.text⟩

mutual

/-- The leaves of an expression in the order of the source: an operator stands before, between or
after its operands, and a word before its parts. -/
def Expr.leaves : Expr → List Leaf
  | .name p text => [⟨p, .name text⟩]
  | .int p value => [⟨p, .int value⟩]
  | .float p value => [⟨p, .float value⟩]
  | .str p value => [⟨p, .str value⟩]
  | .bool p value => [⟨p, .bool value⟩]
  | .unary p operator operand => ⟨p, .unary operator⟩ :: operand.leaves
  | .binary p operator left right => left.leaves ++ ⟨p, .binary operator⟩ :: right.leaves
  | .conditional p condition consequence alternative =>
    ⟨p, .ifWord⟩ :: (condition.leaves ++ consequence.leaves ++
      (match alternative with
        | none => []
        | some block => block.leaves))
  | .function p parameters body => ⟨p, .fnWord⟩ :: (parameters.map Name.leaf ++ body.leaves)
  | .call _ callee arguments => callee.leaves ++ Expr.listLeaves arguments
  | .array _ elements => Expr.listLeaves elements
  | .hash _ pairs => Expr.pairLeaves pairs
  | .index _ target subscript => target.leaves ++ subscript.leaves
  | .slice _ target start stop =>
    target.leaves ++ Expr.optionLeaves start ++ Expr.optionLeaves stop
  | .whileLoop p condition body => ⟨p, .whileWord⟩ :: (condition.leaves ++ body.leaves)
  | .forLoop p start condition advance body =>
    ⟨p, .forWord⟩ :: (start.leaves ++ condition.leaves ++ advance.leaves ++ body.leaves)
  | .step p direction .before operand => ⟨p, .step direction⟩ :: operand.leaves
  | .step p direction .after operand => operand.leaves ++ [⟨p, .step direction⟩]
  | .range p bound start stop => start.leaves ++ ⟨p, .range bound⟩ :: stop.leaves

def Expr.optionLeaves : Option Expr → List Leaf
  | none => []
  | some e => e.leaves

def Expr.listLeaves : List Expr → List Leaf
  | [] => []
  | e :: es => e.leaves ++ Expr.listLeaves es

/-- The leaves of every key and, after it, of its value. -/
def Expr.pairLeaves : List (Expr × Expr) → List Leaf
  | [] => []
  | (key, value) :: pairs => key.leaves ++ value.leaves ++ Expr.pairLeaves pairs

def Stmt.leaves : Stmt → List Leaf
  | .bind p name value => ⟨p, .letWord⟩ :: name.leaf :: value.leaves
  | .store p name subscript value =>
    ⟨p, .letWord⟩ :: name.leaf :: (subscript.leaves ++ value.leaves)
  | .ret p value => ⟨p, .returnWord⟩ :: value.leaves
  | .expr _ expression => expression.leaves
  | .comment p text => [⟨p, .comment text⟩]

def Stmt.listLeaves : List Stmt → List Leaf
  | [] => []
  | s :: ss => s.leaves ++ Stmt.listLeaves ss

def Block.leaves : Block → List Leaf
  | .mk _ body => Stmt.listLeaves body

end

/-- The leaves of a program. -/
def Program.leaves (program : Program) : List Leaf :=
  Stmt.listLeaves program

/-! ### Tokens with content -/

/-- The kinds of token that only separate and group. -/
def Kind.isPunctuation : Kind → Bool
  | assign | comma | semicolon | colon | lparen | rparen | lbrace | rbrace | lbracket | rbracket
  | elseWord => true
  | _ => false

/-- The kinds of token that leaves stand for: six words, names, literals, comments and the
operators. -/
def Kind.hasContent : Kind → Bool
  | letWord | returnWord | ifWord | fnWord | whileWord | forWord => true
  | ident | int | float | str | trueWord | falseWord | comment => true
  | plus | minus | bang | asterisk | slash | percent | power | tilde | ampersand | pipe | caret
  | shiftLeft | shiftRight | unsignedShiftRight | less | greater | lessEqual | greaterEqual | equal
  | notEqual | increment | decrement | range | exclusiveRange | andWord | orWord => true
  | _ => false

/-- The token shows the mark: it has the mark's kind and carries the same text, the number that the
text denotes or the operator. -/
def Mark.ShownBy (t : Token) : Mark → Prop
  | letWord => t.kind = .letWord
  | returnWord => t.kind = .returnWord
  | ifWord => t.kind = .ifWord
  | fnWord => t.kind = .fnWord
  | whileWord => t.kind = .whileWord
  | forWord => t.kind = .forWord
  | name text => t.kind = .ident ∧ text = t.literal
  | int value => t.kind = .int ∧ Decimal.readInt? t.literal.toList = some value.toInt
  | float value => t.kind = .float ∧ Decimal.readFloat? t.literal.toList = some value
  | str value => t.kind = .str ∧ value = t.literal
  | bool value => t.kind = if value then .trueWord else .falseWord
  | comment text => t.kind = .comment ∧ text = t.literal
  | unary operator => UnaryOperator.ofKind? t.kind = some operator
  | binary operator => BinaryOperator.ofKind? t.kind = some operator
  | step direction => StepDirection.ofKind? t.kind = some direction
  | range bound => RangeBound.ofKind? t.kind = some bound

/-- The token stands where the leaf stands and shows what it shows. -/
def Token.Carries (t : Token) (l : Leaf) : Prop :=
  l.position = t.position ∧ l.mark.ShownBy t

theorem Kind.hasContent_eq_false {k : Kind} (h : k.isPunctuation = true) :
    k.hasContent = false := by
  revert h
  cases k <;> decide

/-- Every kind of token that spells an operator has content. -/
theorem Kind.hasContent_of_operator {k : Kind}
    (h : UnaryOperator.ofKind? k ≠ none ∨ BinaryOperator.ofKind? k ≠ none ∨
      StepDirection.ofKind? k ≠ none ∨ RangeBound.ofKind? k ≠ none) : k.hasContent = true := by
  revert h
  cases k <;> decide

theorem Mark.ShownBy.hasContent {t : Token} {m : Mark} (h : m.ShownBy t) :
    t.kind.hasContent = true := by
  cases m with
  | letWord | returnWord | ifWord | fnWord | whileWord | forWord => rw [show t.kind = _ from h]; rfl
  | name | int | float | str | comment => rw [show t.kind = _ from h.1]; rfl
  | bool b =>
    rw [show t.kind = _ from h]
    cases b <;> rfl
  | unary => exact Kind.hasContent_of_operator (.inl (Option.ne_none_iff_exists'.mpr ⟨_, h⟩))
  | binary =>
    exact Kind.hasContent_of_operator (.inr (.inl (Option.ne_none_iff_exists'.mpr ⟨_, h⟩)))
  | step =>
    exact Kind.hasContent_of_operator (.inr (.inr (.inl (Option.ne_none_iff_exists'.mpr ⟨_, h⟩))))
  | range =>
    exact Kind.hasContent_of_operator (.inr (.inr (.inr (Option.ne_none_iff_exists'.mpr ⟨_, h⟩))))

/-! ### Spelling leaves -/

/-- The tokens `ts` start with tokens that carry the leaves `ls`, with punctuation between them, and
`ts'` follows. -/
inductive Spells : List Token → List Leaf → List Token → Prop
  | nil {ts} : Spells ts [] ts
  | skip {t k ts ls ts'} (ht : t.kind = k) (hk : k.isPunctuation = true) (hs : Spells ts ls ts') :
      Spells (t :: ts) ls ts'
  | leaf {t ts l ls ts'} (ht : t.Carries l) (hs : Spells ts ls ts') :
      Spells (t :: ts) (l :: ls) ts'

namespace Spells

variable {t : Token} {ts ts₁ ts' : List Token} {ls ms : List Leaf} {p : Position} {m : Mark}

theorem trans (h : Spells ts ls ts₁) (h' : Spells ts₁ ms ts') : Spells ts (ls ++ ms) ts' := by
  induction h with
  | nil => exact h'
  | skip ht hk _ ih => exact .skip ht hk (ih h')
  | leaf ht _ ih => exact .leaf ht (ih h')

/-- A token that stands for the next leaf. -/
theorem mark (hm : m.ShownBy t) (hs : Spells ts ls ts') :
    Spells (t :: ts) (⟨t.position, m⟩ :: ls) ts' :=
  .leaf ⟨rfl, hm⟩ hs

/-- A token of punctuation after what has been spelt. -/
theorem close {k : Kind} (hs : Spells ts ls (t :: ts')) (ht : t.kind = k)
    (hk : k.isPunctuation = true) : Spells ts ls ts' := by
  simpa using hs.trans (.skip ht hk .nil)

theorem hasContent_or_isPunctuation (h : Spells ts ls []) (ht : t ∈ ts) :
    t.kind.hasContent = true ∨ t.kind.isPunctuation = true := by
  generalize hn : ([] : List Token) = ts' at h
  induction h with
  | nil => simp [← hn] at ht
  | skip hk hp _ ih =>
    rcases List.mem_cons.mp ht with rfl | ht
    · exact .inr (hk ▸ hp)
    · exact ih ht hn
  | leaf hc _ ih =>
    rcases List.mem_cons.mp ht with rfl | ht
    · exact .inl hc.2.hasContent
    · exact ih ht hn

theorem forall₂_carries (h : Spells ts ls []) :
    List.Forall₂ Token.Carries (ts.filter fun t ↦ t.kind.hasContent) ls := by
  generalize hn : ([] : List Token) = ts' at h
  induction h with
  | nil => simp [← hn]
  | @skip t k _ _ _ ht hk _ ih =>
    rw [List.filter_cons_of_neg (by simp [ht, Kind.hasContent_eq_false hk])]
    exact ih hn
  | leaf hc _ ih =>
    rw [List.filter_cons_of_pos (by exact hc.2.hasContent)]
    exact .cons hc (ih hn)

end Spells

namespace Phrase

/-- The leaves of what a phrase denotes. -/
def leaves : (p : Phrase) → p.Result → List Leaf
  | parameters, names | moreParameters, names => names.map Name.leaf
  | expression _, e | operand, e | operation _ _, e | extension _ _, e | subscript _ _, e
  | conditional _, e | forLoop _, e => e.leaves
  | sliceEnd, stop => Expr.optionLeaves stop
  | expressions _, es | moreExpressions _, es => Expr.listLeaves es
  | pairs, ps => Expr.pairLeaves ps
  | block, b => b.leaves
  | statements, ss => Stmt.listLeaves ss
  | statement, s | bareStatement, s => s.leaves

/-- The leaves that were spelt before the phrase started. -/
def before : Phrase → List Leaf
  | operation _ left | extension _ left | subscript _ left => left.leaves
  | conditional p => [⟨p, .ifWord⟩]
  | forLoop p => [⟨p, .forWord⟩]
  | _ => []

/-- The token that was taken before the phrase started and whose leaf the phrase has yet to
place. -/
def taken : Phrase → List Token
  | extension t _ => [t]
  | _ => []

/-- The tokens of the phrase spell the leaves that it adds. -/
def Spelt (p : Phrase) (ts : List Token) (r : p.Result) (ts' : List Token) : Prop :=
  ∃ ls, p.leaves r = p.before ++ ls ∧ Spells (p.taken ++ ts) ls ts'

section Spelt

variable {p : Phrase} {ts ts' : List Token} {r : p.Result}

theorem Spelt.of_spells (h : Spells ts (p.leaves r) ts') (hb : p.before = [] := by rfl)
    (ht : p.taken = [] := by rfl) : p.Spelt ts r ts' :=
  ⟨p.leaves r, by simp [hb], by simpa [ht] using h⟩

theorem Spelt.spells (h : p.Spelt ts r ts') (hb : p.before = [] := by rfl)
    (ht : p.taken = [] := by rfl) : Spells ts (p.leaves r) ts' := by
  obtain ⟨ls, hl, hs⟩ := h
  simp only [hb, List.nil_append] at hl
  simpa [ht, hl] using hs

end Spelt

end Phrase

theorem Phrase.isPunctuation_of_proper {closing : Kind} (h : (Phrase.expressions closing).Proper) :
    closing.isPunctuation = true := by
  rcases h with rfl | rfl <;> rfl

open Phrase in
/-- The tokens of every derived phrase spell its leaves. -/
theorem Reads.spelt {p : Phrase} {ts ts' : List Token} {r : p.Result} (h : Reads p ts r ts') :
    p.Proper → p.Spelt ts r ts' := by
  induction h with
  | noParameter ht => exact fun _ ↦ .of_spells (.skip ht rfl .nil)
  | parameter ht hs ih => exact fun _ ↦ .of_spells (.mark ⟨ht, rfl⟩ (ih trivial).spells)
  | lastParameter ht => exact fun _ ↦ .of_spells (.skip ht rfl .nil)
  | nextParameter ht hu hs ih =>
    exact fun _ ↦ .of_spells (.skip ht rfl (.mark ⟨hu, rfl⟩ (ih trivial).spells))
  | name ht | str ht => exact fun _ ↦ .of_spells (.mark ⟨ht, rfl⟩ .nil)
  | int ht hv =>
    obtain ⟨i, hi, hw⟩ := Option.bind_eq_some_iff.mp hv
    rw [Word.ofInt?_eq_some_iff] at hw
    exact fun _ ↦ .of_spells (.mark ⟨ht, hw ▸ hi⟩ .nil)
  | float ht hx => exact fun _ ↦ .of_spells (.mark ⟨ht, hx⟩ .nil)
  | bool ht => exact fun _ ↦ .of_spells (.mark ht .nil)
  | unary ht he ih => exact fun _ ↦ .of_spells (.mark ht (ih trivial).spells)
  | stepBefore ht he ih => exact fun _ ↦ .of_spells (.mark ht (ih trivial).spells)
  | group ht he hu ih => exact fun _ ↦ .of_spells (.skip ht rfl ((ih trivial).spells.close hu rfl))
  | ifOperand ht he ih =>
    intro _
    obtain ⟨ls, hl, hs⟩ := ih trivial
    exact ⟨⟨_, .ifWord⟩ :: ls, hl, .mark ht hs⟩
  | function ht hu hn hb ihn ihb =>
    have hs := (ihn trivial).spells.trans (ihb trivial).spells
    exact fun _ ↦ .of_spells (.mark ht (.skip hu rfl hs))
  | whileLoop ht hc hb ihc ihb =>
    exact fun _ ↦ .of_spells (.mark ht ((ihc trivial).spells.trans (ihb trivial).spells))
  | forOperand ht he ih =>
    intro _
    obtain ⟨ls, hl, hs⟩ := ih trivial
    exact ⟨⟨_, .forWord⟩ :: ls, hl, .mark ht hs⟩
  | array ht he ih => exact fun _ ↦ .of_spells (.skip ht rfl (ih (.inr rfl)).spells)
  | hash ht hp ih => exact fun _ ↦ .of_spells (.skip ht rfl (ih trivial).spells)
  | expression hl he ihl ihe =>
    intro _
    obtain ⟨ls, hls, hs⟩ := ihe trivial
    exact ⟨_ ++ ls, hls, (ihl trivial).spells.trans hs⟩
  | stop hs => exact fun _ ↦ ⟨[], (List.append_nil _).symm, .nil⟩
  | @goOn _ left _ _ e _ r _ ht he hr ihe ihr =>
    intro _
    obtain ⟨ls, hl, hs⟩ := ihe (Nat.lt_of_le_of_lt (Nat.zero_le _) ht)
    obtain ⟨ms, hm, hs'⟩ := ihr trivial
    refine ⟨ls ++ ms, ?_, hs.trans hs'⟩
    calc r.leaves = e.leaves ++ ms := hm
      _ = left.leaves ++ ls ++ ms := congrArg (· ++ ms) hl
      _ = left.leaves ++ (ls ++ ms) := List.append_assoc ..
  | @call _ _ _ es _ ht he ih =>
    exact fun _ ↦ ⟨Expr.listLeaves es, rfl, .skip ht rfl (ih (.inl rfl)).spells⟩
  | element ht he ih =>
    intro _
    obtain ⟨ls, hl, hs⟩ := ih trivial
    exact ⟨ls, hl, .skip ht rfl hs⟩
  | stepAfter ht => exact fun _ ↦ ⟨[_], rfl, .mark ht .nil⟩
  | @range _ _ _ _ e _ ht he ih =>
    exact fun _ ↦ ⟨_ :: e.leaves, rfl, .mark ht (ih trivial).spells⟩
  | @binary _ _ _ _ e _ ht he ih =>
    exact fun _ ↦ ⟨_ :: e.leaves, rfl, .mark ht (ih trivial).spells⟩
  | @sliceFromStart _ target _ _ stop _ ht hs ih =>
    refine fun _ ↦ ⟨Expr.optionLeaves stop, ?_, .skip ht rfl (ih trivial).spells⟩
    exact congrArg (· ++ Expr.optionLeaves stop) (List.append_nil target.leaves)
  | @slice _ _ _ first _ _ stop _ hf ht hs ihf ihs =>
    exact fun _ ↦ ⟨first.leaves ++ Expr.optionLeaves stop, List.append_assoc ..,
      ((ihf trivial).spells.close ht rfl).trans (ihs trivial).spells⟩
  | @index _ _ _ first _ _ hf ht ihf =>
    exact fun _ ↦ ⟨first.leaves, rfl, (ihf trivial).spells.close ht rfl⟩
  | noSliceEnd ht => exact fun _ ↦ .of_spells (.skip ht rfl .nil)
  | sliceEnd he ht ih => exact fun _ ↦ .of_spells ((ih trivial).spells.close ht rfl)
  | @onlyIf _ _ c _ b _ hc hb he ihc ihb =>
    refine fun _ ↦ ⟨c.leaves ++ b.leaves, ?_, (ihc trivial).spells.trans (ihb trivial).spells⟩
    exact congrArg (_ :: ·) (List.append_nil _)
  | @elseIf _ _ c _ b _ u _ e _ hc hb ht hu he ihc ihb ihe =>
    intro _
    obtain ⟨ls, hl, hs⟩ := ihe trivial
    have hl : e.leaves = ⟨u.position, .ifWord⟩ :: ls := hl
    refine ⟨c.leaves ++ b.leaves ++ ⟨u.position, .ifWord⟩ :: ls, ?_, ?_⟩
    · simp [Phrase.leaves, before, Expr.leaves, Block.leaves, Stmt.listLeaves, Stmt.leaves, hl]
    · exact (((ihc trivial).spells.trans (ihb trivial).spells).close ht rfl).trans (.mark hu hs)
  | @orElse _ _ c _ b _ _ d _ hc hb ht hd ihc ihb ihd =>
    have hs := ((ihc trivial).spells.trans (ihb trivial).spells).close ht rfl
    exact fun _ ↦ ⟨c.leaves ++ b.leaves ++ d.leaves, rfl, hs.trans (ihd trivial).spells⟩
  | @forLoop _ _ _ s _ _ c _ _ a _ _ b _ ht hs hu hn hc hv ha hw hb ihs ihc iha ihb =>
    have h := ((ihs trivial).spells.close hu rfl).trans ((ihc trivial).spells.close hv rfl)
    have h := (h.trans ((iha trivial).spells.close hw rfl)).trans (ihb trivial).spells
    exact fun _ ↦ ⟨s.leaves ++ c.leaves ++ a.leaves ++ b.leaves, rfl, .skip ht rfl h⟩
  | noExpression ht | lastExpression ht =>
    exact fun hp ↦ .of_spells (.skip ht (isPunctuation_of_proper hp) .nil)
  | firstExpression he hs ihe ihs =>
    exact fun hp ↦ .of_spells ((ihe trivial).spells.trans (ihs hp).spells)
  | nextExpression ht he hs ihe ihs =>
    exact fun hp ↦ .of_spells (.skip ht rfl ((ihe trivial).spells.trans (ihs hp).spells))
  | noPair ht => exact fun _ ↦ .of_spells (.skip ht rfl .nil)
  | lastPair hk ht hv hu ihk ihv =>
    have hs := ((ihk trivial).spells.close ht rfl).trans ((ihv trivial).spells.close hu rfl)
    exact fun _ ↦ .of_spells (hs.trans .nil)
  | nextPair hk ht hv hu hp ihk ihv ihp =>
    have hs := ((ihk trivial).spells.close ht rfl).trans ((ihv trivial).spells.close hu rfl)
    exact fun _ ↦ .of_spells (hs.trans (ihp trivial).spells)
  | block ht hs ih => exact fun _ ↦ .of_spells (.skip ht rfl (ih trivial).spells)
  | noStatement ht => exact fun _ ↦ .of_spells (.skip ht rfl .nil)
  | nextStatement hs hr ihs ihr =>
    exact fun _ ↦ .of_spells ((ihs trivial).spells.trans (ihr trivial).spells)
  | commentStatement hs hc ih => exact fun _ ↦ .of_spells (ih trivial).spells
  | closedStatement hs hc ht ih => exact fun _ ↦ .of_spells ((ih trivial).spells.close ht rfl)
  | openStatement hs hc hn ih => exact fun _ ↦ .of_spells (ih trivial).spells
  | bind ht hu hv he ih =>
    exact fun _ ↦ .of_spells (.mark ht (.mark ⟨hu, rfl⟩ (.skip hv rfl (ih trivial).spells)))
  | store ht hu hv hk hw hx he ihk ihe =>
    have hs := (((ihk trivial).spells.close hw rfl).close hx rfl).trans (ihe trivial).spells
    exact fun _ ↦ .of_spells (.mark ht (.mark ⟨hu, rfl⟩ (.skip hv rfl hs)))
  | ret ht he ih => exact fun _ ↦ .of_spells (.mark ht (ih trivial).spells)
  | comment ht => exact fun _ ↦ .of_spells (.mark ⟨ht, rfl⟩ .nil)
  | expr he ih => exact fun _ ↦ .of_spells (ih trivial).spells

theorem ReadsProgram.spells {ts : List Token} {program : Program} (h : ReadsProgram ts program) :
    Spells ts program.leaves [] := by
  induction h with
  | nil => exact .nil
  | cons hs _ ih => exact (hs.spelt trivial).spells.trans ih

/-- When a text is read without errors, it has no token that the grammar has no use for, and its
tokens with content are the leaves of the program that was read, one for one and in order. -/
theorem forall₂_carries_leaves (source : String) (h : (Parsed.ofSource source).errors = []) :
    (∀ t ∈ Token.ofSource source,
      t.kind ≠ .illegal ∧ t.kind ≠ .asWord ∧ t.kind ≠ .importWord) ∧
    List.Forall₂ Token.Carries ((Token.ofSource source).filter fun t ↦ t.kind.hasContent)
      (Parsed.ofSource source).program.leaves := by
  have hs := (readsProgram_ofSource source h).spells
  refine ⟨fun t ht ↦ ?_, hs.forall₂_carries⟩
  have hk := hs.hasContent_or_isPunctuation ht
  refine ⟨?_, ?_, ?_⟩ <;> intro ht <;> simp [ht, Kind.hasContent, Kind.isPunctuation] at hk

/-- A text with a loop, a store, a float, a step and a comment, and its sixteen leaves. -/
theorem forall₂_carries_leaves_loop :
    let source := "for (let i = 0; i < 3; i++) \x7b let h[i] = [-1.5, i]; \x7d # done"
    (Parsed.ofSource source).errors = [] ∧
    List.Forall₂ Token.Carries ((Token.ofSource source).filter fun t ↦ t.kind.hasContent)
      (Parsed.ofSource source).program.leaves ∧
    (Parsed.ofSource source).program.leaves.length = 16 := by
  refine ⟨by decide +kernel, (forall₂_carries_leaves _ ?_).2, by decide +kernel⟩
  decide +kernel

end Treewalk
