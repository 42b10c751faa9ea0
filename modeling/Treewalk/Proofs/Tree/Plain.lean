import Treewalk.Grammar.Precedence
import Treewalk.Proofs.Token.Lexeme
import Treewalk.Tree.Printer

/-!
# Plain trees and their texts

A tree up to places (`Expr.erase`), the plain trees, whose texts show all of them (`Expr.Plain`,
`Program.Plain`), and the characters of those texts, one equation for each kind of expression.
-/

set_option autoImplicit false
set_option relaxedAutoImplicit false

namespace Treewalk

open Scanner

/-! ### Trees up to places -/

/-- The name without its place. -/
def Name.erase (n : Name) : Name :=
  ⟨n.text, default⟩

mutual

/-- The expression without its places. -/
def Expr.erase : Expr → Expr
  | .name _ text => .name default text
  | .int _ value => .int default value
  | .float _ value => .float default value
  | .str _ value => .str default value
  | .bool _ value => .bool default value
  | .unary _ operator operand => .unary default operator operand.erase
  | .binary _ operator left right => .binary default operator left.erase right.erase
  | .conditional _ condition consequence alternative =>
    .conditional default condition.erase consequence.erase
      (match alternative with
        | none => none
        | some block => some block.erase)
  | .function _ parameters body => .function default (parameters.map Name.erase) body.erase
  | .call _ callee arguments => .call default callee.erase (Expr.eraseList arguments)
  | .array _ elements => .array default (Expr.eraseList elements)
  | .hash _ pairs => .hash default (Expr.erasePairs pairs)
  | .index _ target subscript => .index default target.erase subscript.erase
  | .slice _ target start stop =>
    .slice default target.erase (Expr.eraseOption start) (Expr.eraseOption stop)
  | .whileLoop _ condition body => .whileLoop default condition.erase body.erase
  | .forLoop _ start condition advance body =>
    .forLoop default start.erase condition.erase advance.erase body.erase
  | .step _ direction place operand => .step default direction place operand.erase
  | .range _ bound start stop => .range default bound start.erase stop.erase

def Expr.eraseOption : Option Expr → Option Expr
  | none => none
  | some e => some e.erase

def Expr.eraseList : List Expr → List Expr
  | [] => []
  | e :: es => e.erase :: Expr.eraseList es

def Expr.erasePairs : List (Expr × Expr) → List (Expr × Expr)
  | [] => []
  | (key, value) :: pairs => (key.erase, value.erase) :: Expr.erasePairs pairs

/-- The statement without its places. -/
def Stmt.erase : Stmt → Stmt
  | .bind _ name value => .bind default name.erase value.erase
  | .store _ name subscript value => .store default name.erase subscript.erase value.erase
  | .ret _ value => .ret default value.erase
  | .expr _ expression => .expr default expression.erase
  | .comment _ text => .comment default text

def Stmt.eraseList : List Stmt → List Stmt
  | [] => []
  | s :: ss => s.erase :: Stmt.eraseList ss

def Block.erase : Block → Block
  | .mk _ body => .mk default (Stmt.eraseList body)

end

theorem Expr.erase_slice (p : Position) (a : Expr) (start stop : Option Expr) :
    (Expr.slice p a start stop).erase =
      .slice default a.erase (Expr.eraseOption start) (Expr.eraseOption stop) :=
  rfl

/-- The program without its places. -/
def Program.erase (program : Program) : Program :=
  Stmt.eraseList program

/-! ### Plain trees -/

/-- An expression whose text shows all of it. The names are single tokens and the integers have no
sign; strings, floats, functions, conditionals and loops are left out. -/
inductive Expr.Plain : Expr → Prop
  | name {p text} (h : IsLexeme .ident text) : Plain (.name p text)
  | int {p v} (h : 0 ≤ v.toInt) : Plain (.int p v)
  | bool {p b} : Plain (.bool p b)
  | unary {p operator e} (he : Plain e) : Plain (.unary p operator e)
  | binary {p operator l r} (hl : Plain l) (hr : Plain r) : Plain (.binary p operator l r)
  | call {p f es} (hf : Plain f) (hs : ∀ e ∈ es, Plain e) : Plain (.call p f es)
  | array {p es} (hs : ∀ e ∈ es, Plain e) : Plain (.array p es)
  | hash {p ps} (hk : ∀ q ∈ ps, Plain q.1) (hv : ∀ q ∈ ps, Plain q.2) : Plain (.hash p ps)
  | index {p a k} (ha : Plain a) (hk : Plain k) : Plain (.index p a k)
  | slice {p a start stop} (ha : Plain a) (hs : ∀ e ∈ start, Plain e) (ht : ∀ e ∈ stop, Plain e) :
      Plain (.slice p a start stop)
  | step {p direction place e} (he : Plain e) : Plain (.step p direction place e)
  | range {p bound l r} (hl : Plain l) (hr : Plain r) : Plain (.range p bound l r)

/-- A binding, a store or a return of plain expressions, or a comment that is one token. -/
inductive Stmt.Plain : Stmt → Prop
  | bind {p n e} (hn : IsLexeme .ident n.text) (he : e.Plain) : Plain (.bind p n e)
  | store {p n k e} (hn : IsLexeme .ident n.text) (hk : k.Plain) (he : e.Plain) :
      Plain (.store p n k e)
  | ret {p e} (he : e.Plain) : Plain (.ret p e)
  | comment {p text} (h : IsLexeme .comment text) : Plain (.comment p text)

/-- A program of plain statements. Only its last statement may be an expression. -/
inductive Program.Plain : Program → Prop
  | nil : Plain []
  | last {p e} (he : e.Plain) : Plain [.expr p e]
  | cons {s ss} (hs : s.Plain) (hr : Plain ss) : Plain (s :: ss)

/-! ### The characters of a text -/

theorem Word.exists_text_eq_repr {v : Int64} (h : 0 ≤ v.toInt) :
    ∃ n : Nat, v.toInt = n ∧ Word.text v = n.repr := by
  unfold Word.text
  split
  · next n hn => exact ⟨n, hn, rfl⟩
  · next n hn => simp [hn] at h

namespace Expr

/-- The characters of expressions with commas between them. -/
def listChars : List Expr → List Char
  | [] => []
  | [e] => e.text.toList
  | e :: f :: es => e.text.toList ++ ',' :: ' ' :: listChars (f :: es)

/-- The characters of keys and values with commas between them. -/
def pairChars : List (Expr × Expr) → List Char
  | [] => []
  | [(k, v)] => k.text.toList ++ ':' :: v.text.toList
  | (k, v) :: q :: ps =>
    k.text.toList ++ ':' :: (v.text.toList ++ ',' :: ' ' :: pairChars (q :: ps))

/-- The characters of a slice bound that may be missing. -/
def boundChars : Option Expr → List Char
  | none => []
  | some e => e.text.toList

theorem toList_listText (es : List Expr) : (listText es).toList = listChars es := by
  fun_induction listChars es with
  | case1 => rfl
  | case2 e => rfl
  | case3 e f es ih =>
    change (e.text ++ ", " ++ listText (f :: es)).toList = _
    simp [ih]

theorem toList_pairText (ps : List (Expr × Expr)) : (pairText ps).toList = pairChars ps := by
  fun_induction pairChars ps with
  | case1 => rfl
  | case2 k v =>
    change (k.text ++ ":" ++ v.text).toList = _
    simp
  | case3 k v q ps ih =>
    change (k.text ++ ":" ++ v.text ++ ", " ++ pairText (q :: ps)).toList = _
    simp [ih]

section Chars

variable {p : Position}

theorem toList_text_unary (operator : UnaryOperator) (e : Expr) :
    (unary p operator e).text.toList =
      '(' :: (operator.symbol.toList ++ e.text.toList ++ [')']) := by
  change ("(" ++ operator.symbol ++ e.text ++ ")").toList = _
  simp

theorem toList_text_binary (operator : BinaryOperator) (l r : Expr) :
    (binary p operator l r).text.toList =
      '(' :: (l.text.toList ++ ' ' :: (operator.symbol.toList ++ ' ' :: r.text.toList) ++
        [')']) := by
  change ("(" ++ l.text ++ " " ++ operator.symbol ++ " " ++ r.text ++ ")").toList = _
  simp

theorem toList_text_call (f : Expr) (es : List Expr) :
    (call p f es).text.toList = f.text.toList ++ '(' :: (listChars es ++ [')']) := by
  change (f.text ++ "(" ++ listText es ++ ")").toList = _
  simp [toList_listText]

theorem toList_text_array (es : List Expr) :
    (array p es).text.toList = '[' :: (listChars es ++ [']']) := by
  change ("[" ++ listText es ++ "]").toList = _
  simp [toList_listText]

theorem toList_text_hash (ps : List (Expr × Expr)) :
    (hash p ps).text.toList = '{' :: (pairChars ps ++ ['}']) := by
  change ("\x7b" ++ pairText ps ++ "\x7d").toList = _
  simp [toList_pairText]

theorem toList_text_index (a k : Expr) :
    (index p a k).text.toList =
      '(' :: (a.text.toList ++ '[' :: (k.text.toList ++ [']']) ++ [')']) := by
  change ("(" ++ a.text ++ "[" ++ k.text ++ "])").toList = _
  simp

theorem toList_text_slice (a : Expr) (start stop : Option Expr) :
    (slice p a start stop).text.toList =
      '(' :: (a.text.toList ++ '[' :: (boundChars start ++ ':' :: (boundChars stop ++ [']'])) ++
        [')']) := by
  cases start with
  | none =>
    cases stop with
    | none =>
      change ("(" ++ a.text ++ "[" ++ "" ++ ":" ++ "" ++ "])").toList = _
      simp [boundChars]
    | some t =>
      change ("(" ++ a.text ++ "[" ++ "" ++ ":" ++ t.text ++ "])").toList = _
      simp [boundChars]
  | some s =>
    cases stop with
    | none =>
      change ("(" ++ a.text ++ "[" ++ s.text ++ ":" ++ "" ++ "])").toList = _
      simp [boundChars]
    | some t =>
      change ("(" ++ a.text ++ "[" ++ s.text ++ ":" ++ t.text ++ "])").toList = _
      simp [boundChars]

theorem toList_text_stepBefore (direction : StepDirection) (e : Expr) :
    (step p direction .before e).text.toList =
      '(' :: (direction.symbol.toList ++ e.text.toList ++ [')']) := by
  change ("(" ++ direction.symbol ++ e.text ++ ")").toList = _
  simp

theorem toList_text_stepAfter (direction : StepDirection) (e : Expr) :
    (step p direction .after e).text.toList =
      '(' :: (e.text.toList ++ direction.symbol.toList ++ [')']) := by
  change ("(" ++ e.text ++ direction.symbol ++ ")").toList = _
  simp

theorem toList_text_range (bound : RangeBound) (l r : Expr) :
    (range p bound l r).text.toList =
      '(' :: (l.text.toList ++ (bound.symbol.toList ++ r.text.toList) ++ [')']) := by
  change ("(" ++ l.text ++ bound.symbol ++ r.text ++ ")").toList = _
  simp

end Chars

end Expr

namespace Stmt

section Chars

variable {p : Position}

theorem toList_text_bind (n : Name) (e : Expr) :
    (bind p n e).text.toList =
      'l' :: 'e' :: 't' :: ' ' :: (n.text.toList ++
        ' ' :: '=' :: ' ' :: (e.text.toList ++ [';'])) := by
  change ("let " ++ n.text ++ " = " ++ e.text ++ ";").toList = _
  simp

theorem toList_text_store (n : Name) (k e : Expr) :
    (store p n k e).text.toList =
      'l' :: 'e' :: 't' :: ' ' :: (n.text.toList ++ '[' :: (k.text.toList ++
        ']' :: ' ' :: '=' :: ' ' :: (e.text.toList ++ [';']))) := by
  change ("let " ++ n.text ++ "[" ++ k.text ++ "] = " ++ e.text ++ ";").toList = _
  simp

theorem toList_text_ret (e : Expr) :
    (ret p e).text.toList =
      'r' :: 'e' :: 't' :: 'u' :: 'r' :: 'n' :: ' ' :: (e.text.toList ++ [';']) := by
  change ("return " ++ e.text ++ ";").toList = _
  simp

theorem toList_text_comment (text : String) :
    (comment p text).text.toList = text.toList ++ ['\n'] := by
  change (text ++ "\n").toList = _
  simp

end Chars

theorem toList_listText_cons (s : Stmt) (ss : List Stmt) :
    (listText (s :: ss)).toList = s.text.toList ++ (listText ss).toList := by
  change (s.text ++ listText ss).toList = _
  simp

theorem listText_singleton (s : Stmt) : listText [s] = s.text := by
  change s.text ++ "" = _
  simp

end Stmt

/-- The text of a plain expression starts with a character that ends every symbol before it. -/
theorem Expr.Plain.head_text {e : Expr} (h : e.Plain) :
    ∃ c, e.text.toList.head? = some c ∧ isSymbolBreak c = true := by
  induction h with
  | @name p text h =>
    obtain ⟨c, cs, ht, hc⟩ := h.cut_eq (by decide)
    exact ⟨c, congrArg List.head? ht, by simp [isSymbolBreak, isWordPart, (isWord_of_cut hc).1]⟩
  | @int p v h =>
    obtain ⟨n, -, hn⟩ := Word.exists_text_eq_repr h
    obtain ⟨c, cs, hd⟩ := List.exists_cons_of_ne_nil (Nat.toDigits_ne_nil (n := n) (b := 10))
    have hc : isDigit c = true := isDigit_of_mem_toDigits (hd ▸ List.mem_cons_self)
    have ht : (Expr.int p v).text.toList = c :: cs := by
      rw [← hd, ← Nat.toList_repr, ← hn]
      rfl
    exact ⟨c, congrArg List.head? ht, by simp [isSymbolBreak, isWordPart, hc]⟩
  | @bool p b =>
    cases b with
    | true => exact ⟨'t', show "true".toList.head? = _ by decide, by decide⟩
    | false => exact ⟨'f', show "false".toList.head? = _ by decide, by decide⟩
  | call hf hs ihf ihs =>
    obtain ⟨c, hc, hb⟩ := ihf
    exact ⟨c, by simp [toList_text_call, hc], hb⟩
  | array => exact ⟨'[', by rw [toList_text_array]; rfl, by decide⟩
  | hash => exact ⟨'{', by rw [toList_text_hash]; rfl, by decide⟩
  | unary => exact ⟨'(', by rw [toList_text_unary]; rfl, by decide⟩
  | binary => exact ⟨'(', by rw [toList_text_binary]; rfl, by decide⟩
  | index => exact ⟨'(', by rw [toList_text_index]; rfl, by decide⟩
  | slice => exact ⟨'(', by rw [toList_text_slice]; rfl, by decide⟩
  | range => exact ⟨'(', by rw [toList_text_range]; rfl, by decide⟩
  | @step p direction place e =>
    cases place with
    | before => exact ⟨'(', by rw [toList_text_stepBefore]; rfl, by decide⟩
    | after => exact ⟨'(', by rw [toList_text_stepAfter]; rfl, by decide⟩

theorem Expr.Plain.breaks {e : Expr} (h : e.Plain) (rest : List Char) :
    Breaks (e.text.toList ++ rest) := by
  obtain ⟨c, hc, hb⟩ := h.head_text
  obtain ⟨cs, hs⟩ := List.head?_eq_some_iff.mp hc
  exact ⟨c, cs ++ rest, by simp [hs], hb⟩

/-! ### Operators as text -/

section Operators

variable {rest : List Char}

theorem UnaryOperator.splits (operator : UnaryOperator) (hr : Breaks rest) :
    ∃ k, ofKind? k = some operator ∧ Splits k operator.symbol.toList rest := by
  cases operator with
  | not => exact ⟨.bang, rfl, splits_symbol (by decide) hr⟩
  | negate => exact ⟨.minus, rfl, splits_symbol (by decide) hr⟩
  | complement => exact ⟨.tilde, rfl, splits_symbol (by decide) hr⟩

theorem StepDirection.splits (direction : StepDirection) (hr : Breaks rest) :
    ∃ k, ofKind? k = some direction ∧ Splits k direction.symbol.toList rest := by
  cases direction with
  | up => exact ⟨.increment, rfl, splits_symbol (by decide) hr⟩
  | down => exact ⟨.decrement, rfl, splits_symbol (by decide) hr⟩

theorem RangeBound.splits (bound : RangeBound) (hr : Breaks rest) :
    ∃ k, ofKind? k = some bound ∧ Splits k bound.symbol.toList rest := by
  cases bound with
  | inclusive => exact ⟨.range, rfl, splits_symbol (by decide) hr⟩
  | exclusive => exact ⟨.exclusiveRange, rfl, splits_symbol (by decide) hr⟩

/-- Two of the operators between blanks are words, the others are symbols. -/
theorem BinaryOperator.splits (operator : BinaryOperator) (rest : List Char) :
    ∃ k, ofKind? k = some operator ∧ Splits k operator.symbol.toList (' ' :: rest) := by
  have hs : operator = .and ∨ operator = .or ∨ ∃ entry ∈ Kind.symbols,
      ofKind? entry.2 = some operator ∧ entry.1 = operator.symbol.toList := by
    cases operator <;> decide
  have he : Ends (' ' :: rest) = true := ends_cons rest (by decide) (by decide) (by decide)
  rcases hs with rfl | rfl | ⟨⟨w, k⟩, hm, hk, rfl⟩
  · exact ⟨.andWord, rfl, splits_keyword (by decide) he⟩
  · exact ⟨.orWord, rfl, splits_keyword (by decide) he⟩
  · exact ⟨k, hk, splits_symbol hm (breaks_cons (by decide) _)⟩

end Operators

end Treewalk
