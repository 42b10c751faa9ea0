import Mathlib.Algebra.Group.Int.Defs
import Treewalk.Eval.Interpreter
import Treewalk.Proofs.Grammar.Diagnosis
import Treewalk.Proofs.Grammar.Joining
import Treewalk.Proofs.Token.Numerals
import Treewalk.Proofs.Token.Tiling

/-!
# The shape of what is read

The nodes of a tree are its expressions, its statements and the names that it introduces. Reading a
text gives only nodes of a certain shape (`Node.Shaped`), whether or not there were errors: names
are spelt as names and not as keywords, integers are not negative, a string has at most one sort of
quote in it, a comment stands on one line, a loop does not start with a comment, and brackets behind
an expression hold an index or, if there is a colon, a slice.

Half of this comes from the texts that tokens have (`Token.Lexical`), and half from the grammar. The
invariant that carries it through the derivations is `Phrase.Stands`: the tokens of a phrase are an
end of those of the text, and an expression that the phrase goes on with is of that shape already.
-/

set_option autoImplicit false
set_option relaxedAutoImplicit false

namespace Treewalk

/-! ### Nodes -/

/-- A part of a tree: an expression, a statement or a name where it is introduced. -/
inductive Node where
  | expr (e : Expr)
  | stmt (s : Stmt)
  | name (n : Name)

mutual

/-- An expression and everything in it. -/
def Expr.nodes : Expr → List Node
  | e@(.name ..) | e@(.int ..) | e@(.float ..) | e@(.str ..) | e@(.bool ..) => [.expr e]
  | e@(.unary _ _ operand) => .expr e :: operand.nodes
  | e@(.binary _ _ left right) => .expr e :: (left.nodes ++ right.nodes)
  | e@(.conditional _ condition consequence alternative) =>
    .expr e :: (condition.nodes ++ consequence.nodes ++ Block.optionNodes alternative)
  | e@(.function _ parameters body) => .expr e :: (parameters.map .name ++ body.nodes)
  | e@(.call _ callee arguments) => .expr e :: (callee.nodes ++ Expr.listNodes arguments)
  | e@(.array _ elements) => .expr e :: Expr.listNodes elements
  | e@(.hash _ pairs) => .expr e :: Expr.pairNodes pairs
  | e@(.index _ target subscript) => .expr e :: (target.nodes ++ subscript.nodes)
  | e@(.slice _ target start stop) =>
    .expr e :: (target.nodes ++ Expr.optionNodes start ++ Expr.optionNodes stop)
  | e@(.whileLoop _ condition body) => .expr e :: (condition.nodes ++ body.nodes)
  | e@(.forLoop _ start condition advance body) =>
    .expr e :: (start.nodes ++ condition.nodes ++ advance.nodes ++ body.nodes)
  | e@(.step _ _ _ operand) => .expr e :: operand.nodes
  | e@(.range _ _ start stop) => .expr e :: (start.nodes ++ stop.nodes)

def Expr.optionNodes : Option Expr → List Node
  | none => []
  | some e => e.nodes

def Expr.listNodes : List Expr → List Node
  | [] => []
  | e :: es => e.nodes ++ Expr.listNodes es

def Expr.pairNodes : List (Expr × Expr) → List Node
  | [] => []
  | (key, value) :: pairs => key.nodes ++ value.nodes ++ Expr.pairNodes pairs

/-- A statement and everything in it. -/
def Stmt.nodes : Stmt → List Node
  | s@(.bind _ name value) => .stmt s :: .name name :: value.nodes
  | s@(.store _ name subscript value) =>
    .stmt s :: .name name :: (subscript.nodes ++ value.nodes)
  | s@(.ret _ value) => .stmt s :: value.nodes
  | s@(.expr _ expression) => .stmt s :: expression.nodes
  | s@(.comment ..) => [.stmt s]

def Stmt.listNodes : List Stmt → List Node
  | [] => []
  | s :: ss => s.nodes ++ Stmt.listNodes ss

def Block.nodes : Block → List Node
  | .mk _ body => Stmt.listNodes body

def Block.optionNodes : Option Block → List Node
  | none => []
  | some block => block.nodes

end

/-- All nodes of a program. -/
def Program.nodes (program : Program) : List Node :=
  Stmt.listNodes program

/-! ### Brackets behind an expression -/

/-- Brackets behind an expression: what stands before the colon, whether there is one, and what
stands behind it. -/
structure Brackets where
  position : Position
  target : Expr
  first : Option Expr
  colon : Bool
  last : Option Expr

/-- The brackets of an index or a slice. -/
def Expr.brackets? : Expr → Option Brackets
  | .index position target subscript => some ⟨position, target, some subscript, false, none⟩
  | .slice position target start stop => some ⟨position, target, start, true, stop⟩
  | _ => none

/-- The tokens `ts` start with an expression, if there is one, and `ts'` follows it. -/
def ReadsOption (ts : List Token) : Option Expr → List Token → Prop
  | none, ts' => ts' = ts
  | some e, ts' => Reads (.expression .lowest) ts e ts'

/-- The tokens `ts` start with a colon or not, and `ts'` follows. -/
def ReadsColon (ts : List Token) : Bool → List Token → Prop
  | true, ts' => ∃ t : Token, t.kind = .colon ∧ ts = t :: ts'
  | false, ts' => nextKind ts ≠ .colon ∧ ts' = ts

/-- Among the tokens, at the place of the brackets, stand an opening bracket, what the brackets
hold, and a closing bracket. -/
def Brackets.ReadFrom (tokens : List Token) (b : Brackets) : Prop :=
  ∃ (t : Token) (ts ts₁ ts₂ ts₃ : List Token), t :: ts <:+ tokens ∧ t.kind = .lbracket ∧
    t.position = b.position ∧ ReadsOption ts b.first ts₁ ∧ ReadsColon ts₁ b.colon ts₂ ∧
    ReadsOption ts₂ b.last ts₃ ∧ nextKind ts₃ = .rbracket

/-! ### Shapes -/

/-- A text that is spelt as a name and not as a keyword. -/
def IsName (text : String) : Prop :=
  text.toList ∈ Scanner.nameWords ∧ ∀ k, (text.toList, k) ∉ Kind.keywords

/-- A text without one of the two quotes. -/
def IsQuotable (text : String) : Prop :=
  ¬ ('"' ∈ text.toList ∧ '\'' ∈ text.toList)

/-- A text that starts with the mark of a comment and stands on one line. -/
def IsComment (text : String) : Prop :=
  (['#'] <+: text.toList ∨ ['/', '/'] <+: text.toList) ∧ '\n' ∉ text.toList

/-- Brackets that were read from the tokens: without a colon there are an index and no end. -/
def Brackets.Shaped (tokens : List Token) (b : Brackets) : Prop :=
  b.ReadFrom tokens ∧ (b.colon = false → b.first.isSome ∧ b.last = none)

/-- The shape of the texts, numbers and clauses of an expression. -/
def Expr.Shaped : Expr → Prop
  | .name _ text => IsName text
  | .int _ value => 0 ≤ value.toInt ∧ value.toInt ≤ 2 ^ 63 - 1
  | .str _ text => IsQuotable text
  | .forLoop _ start _ _ _ => start.isComment = false
  | _ => True

/-- The shape of a node that was read from the tokens. -/
def Node.Shaped (tokens : List Token) : Node → Prop
  | .expr e => e.Shaped ∧ ∀ b ∈ e.brackets?, b.Shaped tokens
  | .stmt (.comment _ text) => IsComment text
  | .stmt _ => True
  | .name n => IsName n.text

/-! ### Texts of tokens -/

/-- The text of a token is of the sort that its kind says. -/
structure Token.Lexical (t : Token) : Prop where
  name : t.kind = .ident → IsName t.literal
  int : t.kind = .int → ∃ n : Nat, Decimal.readInt? t.literal.toList = some (n : Int)
  str : t.kind = .str → IsQuotable t.literal
  comment : t.kind = .comment → IsComment t.literal

/-- A name is not spelt as a keyword, since a keyword would have been read. -/
theorem Scanner.Munches.not_keyword {p : Position} {text : List Char} {ts : List Token}
    (h : Munches p text ts) {t : Token} (ht : t ∈ ts) (hk : t.kind = .ident) (k : Kind) :
    (t.literal.toList, k) ∉ Kind.keywords := by
  have hs : ∀ e ∈ Kind.keywords, e.2 ≠ .ident := by decide
  induction h with
  | done => cases ht
  | skip _ _ ih => exact ih ht
  | token hnext _ ih =>
    rcases List.mem_cons.mp ht with rfl | ht
    · intro hmem
      obtain rfl : _ = Kind.ident := hk
      rw [String.toList_ofList, literal_of_ne (by decide)] at hmem
      exact hs _ hmem (Option.some.inj (hnext.keyword k hmem)).symm
    · exact ih ht

theorem Scanner.Spelled.isComment {text : String} (h : Spelled (some .comment) text.toList) :
    IsComment text := by
  have hs : ∀ e ∈ Kind.symbols ++ Kind.keywords, e.2 ≠ .comment := by decide
  unfold IsComment
  generalize text.toList = w at h
  cases h with
  | hash hb => exact ⟨.inl ⟨_, rfl⟩, by simpa using hb⟩
  | slashes hb => exact ⟨.inr ⟨_, rfl⟩, by simpa using hb⟩
  | symbol he => exact absurd rfl (hs _ (List.mem_append_left _ he))
  | keyword he => exact absurd rfl (hs _ (List.mem_append_right _ he))

theorem Scanner.Spelled.mem_nameWords {w : List Char} (h : Spelled (some .ident) w) :
    w ∈ nameWords := by
  have hs : ∀ e ∈ Kind.symbols ++ Kind.keywords, e.2 ≠ .ident := by decide
  cases h with
  | name hc hcs => exact Scanner.mem_nameWords.mpr ⟨_, _, rfl, hc, hcs⟩
  | symbol he => exact absurd rfl (hs _ (List.mem_append_left _ he))
  | keyword he => exact absurd rfl (hs _ (List.mem_append_right _ he))

theorem Token.lexical_of_mem {source : String} {t : Token} (ht : t ∈ Token.ofSource source) :
    t.Lexical where
  name hk := by
    have hword := Token.spelled_literal ht (by simp [hk]) (by simp [hk])
    rw [hk] at hword
    have hmunches := Scanner.munches_tokensFrom Position.start source.toList
    exact ⟨hword.mem_nameWords, hmunches.not_keyword ht hk⟩
  int hk := ⟨_, Token.readInt?_literal ht hk⟩
  str hk := by
    obtain ⟨tiles, last, htiling⟩ := Scanner.exists_isTiling source
    rw [← htiling.tokens_eq] at ht
    obtain ⟨tile, htile, rfl⟩ := List.mem_map.mp ht
    obtain ⟨before, after, hsplit⟩ := List.append_of_mem htile
    obtain ⟨q, hq, hnot, -⟩ := (htiling.fits before tile after hsplit).2.quoted hk
    rintro ⟨hdouble, hsingle⟩
    rcases hq with rfl | rfl
    · exact hnot hdouble
    · exact hnot hsingle
  comment hk := by
    have hword := Token.spelled_literal ht (by simp [hk]) (by simp [hk])
    rw [hk] at hword
    exact hword.isComment

/-! ### Derivations -/

/-- Every node of a list has its shape. -/
def AllShaped (tokens : List Token) (nodes : List Node) : Prop :=
  ∀ node ∈ nodes, node.Shaped tokens

section AllShaped

variable {tokens : List Token} {node : Node} {ms ns : List Node}

theorem AllShaped.nil : AllShaped tokens [] := by
  simp [AllShaped]

theorem AllShaped.cons (h : node.Shaped tokens) (hs : AllShaped tokens ns) :
    AllShaped tokens (node :: ns) :=
  List.forall_mem_cons.mpr ⟨h, hs⟩

theorem AllShaped.append (hm : AllShaped tokens ms) (hn : AllShaped tokens ns) :
    AllShaped tokens (ms ++ ns) :=
  List.forall_mem_append.mpr ⟨hm, hn⟩

end AllShaped

namespace Phrase

/-- The nodes of what a phrase denotes. -/
def nodes : (p : Phrase) → p.Result → List Node
  | parameters, names | moreParameters, names => names.map .name
  | expression _, e | operand, e | operation _ _, e | extension _ _, e | subscript _ _, e
  | conditional _, e | forLoop _, e => e.nodes
  | sliceEnd, stop => Expr.optionNodes stop
  | expressions _, es | moreExpressions _, es => Expr.listNodes es
  | pairs, ps => Expr.pairNodes ps
  | block, b => b.nodes
  | statements, ss => Stmt.listNodes ss
  | statement, s | bareStatement, s => s.nodes

/-- The phrase stands in the text: its tokens are an end of those of the text, and an expression
that it goes on with has its shape. -/
def Stands (tokens : List Token) : Phrase → List Token → Prop
  | operation _ left, ts => ts <:+ tokens ∧ AllShaped tokens left.nodes
  | extension t left, ts => t :: ts <:+ tokens ∧ AllShaped tokens left.nodes
  | subscript position target, ts =>
    (∃ t : Token, t.kind = .lbracket ∧ t.position = position ∧ t :: ts <:+ tokens) ∧
      AllShaped tokens target.nodes
  | _, ts => ts <:+ tokens

end Phrase

section Derivations

variable {tokens : List Token}

theorem suffix_of_cons {t : Token} {ts : List Token} (h : t :: ts <:+ tokens) : ts <:+ tokens :=
  (List.suffix_cons t ts).trans h

theorem lexical_of_suffix {source : String} {t : Token} {ts : List Token}
    (h : t :: ts <:+ Token.ofSource source) : t.Lexical :=
  Token.lexical_of_mem (h.subset List.mem_cons_self)

/-- Digits that denote a word denote one that is not negative. -/
theorem Token.Lexical.word {t : Token} (h : t.Lexical) (hk : t.kind = .int) {v : Int64}
    (hv : (Decimal.readInt? t.literal.toList).bind Word.ofInt? = some v) :
    0 ≤ v.toInt ∧ v.toInt ≤ 2 ^ 63 - 1 := by
  obtain ⟨n, hn⟩ := h.int hk
  rw [hn, Option.bind_some, Word.ofInt?_eq_some_iff] at hv
  have hle := v.toInt_lt
  omega

/-- What stands behind a colon ends at the closing bracket. -/
theorem Reads.exists_readsOption {ts ts' : List Token} {stop : Option Expr}
    (h : Reads .sliceEnd ts stop ts') :
    ∃ ts₁, ReadsOption ts stop ts₁ ∧ nextKind ts₁ = .rbracket := by
  cases h with
  | noSliceEnd ht => exact ⟨_, rfl, ht⟩
  | sliceEnd he ht => exact ⟨_, he, ht⟩

/-- Every node of a derived phrase has its shape. -/
theorem Reads.allShaped {source : String} {p : Phrase} {ts ts' : List Token} {r : p.Result}
    (h : Reads p ts r ts') (hp : p.Proper) (hts : p.Stands (Token.ofSource source) ts) :
    AllShaped (Token.ofSource source) (p.nodes r) := by
  induction h with
  | noParameter | lastParameter | noExpression | lastExpression | noPair | noStatement
  | noSliceEnd => exact .nil
  | parameter ht _ ih =>
    exact .cons ((lexical_of_suffix hts).name ht) (ih trivial (suffix_of_cons hts))
  | nextParameter _ hu _ ih =>
    have hts := suffix_of_cons hts
    exact .cons ((lexical_of_suffix hts).name hu) (ih trivial (suffix_of_cons hts))
  | name ht => exact .cons ⟨(lexical_of_suffix hts).name ht, nofun⟩ .nil
  | int ht hv => exact .cons ⟨(lexical_of_suffix hts).word ht hv, nofun⟩ .nil
  | float => exact .cons ⟨trivial, nofun⟩ .nil
  | str ht => exact .cons ⟨(lexical_of_suffix hts).str ht, nofun⟩ .nil
  | bool => exact .cons ⟨trivial, nofun⟩ .nil
  | unary _ _ ih => exact .cons ⟨trivial, nofun⟩ (ih trivial (suffix_of_cons hts))
  | stepBefore _ _ ih => exact .cons ⟨trivial, nofun⟩ (ih trivial (suffix_of_cons hts))
  | group _ _ _ ih | ifOperand _ _ ih | forOperand _ _ ih =>
    exact ih trivial (suffix_of_cons hts)
  | function _ _ hn _ ihn ihb =>
    have hts := suffix_of_cons (suffix_of_cons hts)
    exact .cons ⟨trivial, nofun⟩
      ((ihn trivial hts).append (ihb trivial ((hn.suffix trivial).trans hts)))
  | whileLoop _ hc _ ihc ihb =>
    have hts := suffix_of_cons hts
    exact .cons ⟨trivial, nofun⟩
      ((ihc trivial hts).append (ihb trivial ((hc.suffix trivial).trans hts)))
  | array _ _ ih => exact .cons ⟨trivial, nofun⟩ (ih (.inr rfl) (suffix_of_cons hts))
  | hash _ _ ih => exact .cons ⟨trivial, nofun⟩ (ih trivial (suffix_of_cons hts))
  | expression hl _ ihl ihe =>
    exact ihe trivial ⟨(hl.suffix trivial).trans hts, ihl trivial hts⟩
  | stop => exact hts.2
  | @goOn level left t ts e ts₁ r ts' ht he _ ihe ihr =>
    have hproper : (Phrase.extension t left).Proper := Nat.lt_of_le_of_lt (Nat.zero_le _) ht
    have hshaped := ihe hproper hts
    exact ihr trivial ⟨(he.suffix hproper).trans (suffix_of_cons hts.1), hshaped⟩
  | call _ _ ih =>
    exact .cons ⟨trivial, nofun⟩ (hts.2.append (ih (.inl rfl) (suffix_of_cons hts.1)))
  | element ht _ ih => exact ih trivial ⟨⟨_, ht, rfl, hts.1⟩, hts.2⟩
  | stepAfter => exact .cons ⟨trivial, nofun⟩ hts.2
  | range _ _ ih | binary _ _ ih =>
    exact .cons ⟨trivial, nofun⟩ (hts.2.append (ih trivial (suffix_of_cons hts.1)))
  | sliceFromStart ht hs ih =>
    obtain ⟨⟨t, hk, hposition, hts⟩, htarget⟩ := hts
    obtain ⟨ts₃, hlast, hclose⟩ := hs.exists_readsOption
    refine .cons ⟨trivial, ?_⟩ ((htarget.append .nil).append
      (ih trivial (suffix_of_cons (suffix_of_cons hts))))
    rintro _ ⟨⟩
    exact ⟨⟨t, _, _, _, ts₃, hts, hk, hposition, rfl, ⟨_, ht, rfl⟩, hlast, hclose⟩, nofun⟩
  | slice hf ht hs ihf ihs =>
    obtain ⟨⟨t, hk, hposition, hts⟩, htarget⟩ := hts
    obtain ⟨ts₃, hlast, hclose⟩ := hs.exists_readsOption
    have hfirst := suffix_of_cons hts
    refine .cons ⟨trivial, ?_⟩ ((htarget.append (ihf trivial hfirst)).append
      (ihs trivial (suffix_of_cons ((hf.suffix trivial).trans hfirst))))
    rintro _ ⟨⟩
    exact ⟨⟨t, _, _, _, ts₃, hts, hk, hposition, hf, ⟨_, ht, rfl⟩, hlast, hclose⟩, nofun⟩
  | @index _ _ _ _ u rest hf hu ihf =>
    obtain ⟨⟨t, hk, hposition, hts⟩, htarget⟩ := hts
    refine .cons ⟨trivial, ?_⟩ (htarget.append (ihf trivial (suffix_of_cons hts)))
    rintro _ ⟨⟩
    have hcolon : nextKind (u :: rest) ≠ .colon := by
      rw [nextKind_cons, hu]
      decide
    exact ⟨⟨t, _, _, _, _, hts, hk, hposition, hf, ⟨hcolon, rfl⟩, rfl, hu⟩, fun _ ↦ ⟨rfl, rfl⟩⟩
  | sliceEnd _ _ ih => exact ih trivial hts
  | onlyIf hc _ _ ihc ihb =>
    exact .cons ⟨trivial, nofun⟩
      (((ihc trivial hts).append (ihb trivial ((hc.suffix trivial).trans hts))).append .nil)
  | elseIf hc hb _ _ _ ihc ihb ihe =>
    have hblock := (hc.suffix trivial).trans hts
    have helse := suffix_of_cons (suffix_of_cons ((hb.suffix trivial).trans hblock))
    exact .cons ⟨trivial, nofun⟩ (((ihc trivial hts).append (ihb trivial hblock)).append
      (.append (.cons trivial (ihe trivial helse)) .nil))
  | orElse hc hb _ _ ihc ihb ihd =>
    have hblock := (hc.suffix trivial).trans hts
    have helse := suffix_of_cons ((hb.suffix trivial).trans hblock)
    exact .cons ⟨trivial, nofun⟩
      (((ihc trivial hts).append (ihb trivial hblock)).append (ihd trivial helse))
  | forLoop _ hs _ hn hc _ ha _ _ ihs ihc iha ihb =>
    have hstart := suffix_of_cons hts
    have hcond := suffix_of_cons ((hs.suffix trivial).trans hstart)
    have hadvance := suffix_of_cons ((hc.suffix trivial).trans hcond)
    have hbody := suffix_of_cons ((ha.suffix trivial).trans hadvance)
    exact .cons ⟨hn, nofun⟩ ((((ihs trivial hstart).append (ihc trivial hcond)).append
      (iha trivial hadvance)).append (ihb trivial hbody))
  | firstExpression he _ ihe ihs =>
    exact (ihe trivial hts).append (ihs hp ((he.suffix trivial).trans hts))
  | nextExpression _ he _ ihe ihs =>
    have hts := suffix_of_cons hts
    exact (ihe trivial hts).append (ihs hp ((he.suffix trivial).trans hts))
  | lastPair hk _ _ _ ihk ihv =>
    have hvalue := suffix_of_cons ((hk.suffix trivial).trans hts)
    exact ((ihk trivial hts).append (ihv trivial hvalue)).append .nil
  | nextPair hk _ hv _ _ ihk ihv ihp =>
    have hvalue := suffix_of_cons ((hk.suffix trivial).trans hts)
    have hmore := suffix_of_cons ((hv.suffix trivial).trans hvalue)
    exact ((ihk trivial hts).append (ihv trivial hvalue)).append (ihp trivial hmore)
  | block _ _ ih => exact ih trivial (suffix_of_cons hts)
  | nextStatement hs _ ihs ihr =>
    exact (ihs trivial hts).append (ihr trivial ((hs.suffix trivial).trans hts))
  | commentStatement _ _ ih | closedStatement _ _ _ ih | openStatement _ _ _ ih =>
    exact ih trivial hts
  | bind _ hu _ _ ih =>
    have hname := suffix_of_cons hts
    exact .cons trivial (.cons ((lexical_of_suffix hname).name hu)
      (ih trivial (suffix_of_cons (suffix_of_cons hname))))
  | store _ hu _ hk _ _ _ ihk ihe =>
    have hname := suffix_of_cons hts
    have hkey := suffix_of_cons (suffix_of_cons hname)
    have hvalue := suffix_of_cons (suffix_of_cons ((hk.suffix trivial).trans hkey))
    exact .cons trivial (.cons ((lexical_of_suffix hname).name hu)
      ((ihk trivial hkey).append (ihe trivial hvalue)))
  | ret _ _ ih => exact .cons trivial (ih trivial (suffix_of_cons hts))
  | comment ht => exact .cons ((lexical_of_suffix hts).comment ht) .nil
  | expr _ ih => exact .cons trivial (ih trivial hts)

end Derivations

/-! ### Programs -/

/-- Every node of a run, from a place in the text on, has its shape. -/
theorem Cursor.ReadsTo.allShaped {source : String} {c : Cursor} {parsed : Parsed}
    (h : c.ReadsTo parsed) (hc : c.rest <:+ Token.ofSource source) :
    AllShaped (Token.ofSource source) parsed.program.nodes := by
  induction h with
  | finished => exact .nil
  | @statement c d s parsed _ hs _ ih =>
    have hd := hs.of_statement.1.trans c.advance_follows
    obtain ⟨depth, hdepth⟩ := hs
    have hread := Phrase.sound_read depth .statement trivial c.rest c.finish
    have hreads := (hread.of_ok (hdepth depth (Nat.le_refl depth))).2
    exact (hreads.allShaped trivial hc).append (ih (hd.1.trans hc))
  | @failure c d e parsed _ he _ ih =>
    have hd := he.of_failure.1.trans c.advance_follows
    exact ih (hd.1.trans hc)

/-- Where brackets hold an index, the value that would stand in for a missing one makes no
difference. -/
theorem Eval.expr_of_index [Host] (known : List Builtin) (depth : Nat) (scope : ScopeId)
    {e : Expr} {b : Brackets} (hb : b ∈ e.brackets?) (hcolon : b.colon = false)
    (missing : Value) :
    Eval.expr known (depth + 1) scope e = (do
      let v ← Eval.expr known depth scope b.target
      let i ← Eval.optional known (depth + 1) scope b.first
      Eval.index v (i.getD missing)) := by
  cases e with
  | index position target subscript =>
    cases hb
    simp [Eval.expr, Eval.optional]
  | slice position target start stop =>
    cases hb
    cases hcolon
  | _ => cases hb

/-- Every node of what is read from a text has its shape, whether there were errors or not. So an
index in brackets is never missing when it is evaluated. -/
theorem ofSource_shaped (source : String) :
    ∀ node ∈ (Parsed.ofSource source).program.nodes,
      node.Shaped (Token.ofSource source) ∧
      ∀ e, node = .expr e → ∀ b ∈ e.brackets?, b.colon = false →
        ∀ (known : List Builtin) (depth : Nat) (scope : ScopeId) (missing : Value),
          Eval.expr known (depth + 1) scope e = (do
            let v ← Eval.expr known depth scope b.target
            let i ← Eval.optional known (depth + 1) scope b.first
            Eval.index v (i.getD missing)) := by
  intro node hnode
  have hrun := Cursor.readsTo_ofSource source
  refine ⟨hrun.allShaped (List.suffix_refl _) node hnode, ?_⟩
  rintro e - b hb hcolon known depth scope missing
  exact Eval.expr_of_index known depth scope hb hcolon missing

/-- Whether a node is an index in brackets. -/
def Node.isIndex : Node → Bool
  | .expr (.index ..) => true
  | _ => false

/-- An index that is read before an error. -/
theorem ofSource_shaped_index :
    let source := "let a = h[k]; )"
    (Parsed.ofSource source).errors.length = 1 ∧
    ∃ (p : Position) (target subscript : Expr),
      .expr (.index p target subscript) ∈ (Parsed.ofSource source).program.nodes ∧
      Brackets.Shaped (Token.ofSource source) ⟨p, target, some subscript, false, none⟩ ∧
      ∀ missing : Value, Eval.expr [] 2 ⟨0⟩ (.index p target subscript) = (do
        let v ← Eval.expr [] 1 ⟨0⟩ target
        let i ← Eval.optional [] 2 ⟨0⟩ (some subscript)
        Eval.index v (i.getD missing)) := by
  intro source
  have hany : (Parsed.ofSource source).program.nodes.any Node.isIndex = true := by decide +kernel
  obtain ⟨node, hnode, hindex⟩ := List.any_eq_true.mp hany
  obtain ⟨hshaped, hvalue⟩ := ofSource_shaped source node hnode
  unfold Node.isIndex at hindex
  split at hindex
  · next p target subscript =>
    refine ⟨by decide +kernel, p, target, subscript, hnode, hshaped.2 _ rfl, fun missing ↦ ?_⟩
    exact hvalue _ rfl _ rfl rfl [] 1 ⟨0⟩ missing
  · cases hindex

end Treewalk
