import Treewalk.Proofs.Grammar.Acceptance
import Treewalk.Proofs.Tree.Plain

/-!
# Printed trees are read back

The text of a plain expression, one built from names, natural numbers, truth values, operations,
calls, collections and ranges, is read as that expression, up to places; and so is the text of a
program of bindings, stores, returns and comments over such expressions, with an expression as its
last statement or not (`ofSource_text`).

`Expr.Reparses` is what the induction carries. The printer puts brackets around every operation, but
a call is printed right behind its callee, so an expression is not always a whole operand: reading
its text leaves the reader where it goes on with the expression, and whatever it does from there is
what it does from the start of the text.
-/

set_option autoImplicit false
set_option relaxedAutoImplicit false

namespace Treewalk

open Scanner

/-! ### Reading what was printed -/

theorem Scanner.Separator.tokensFrom {c : Char} {k : Kind} (h : Separator c k) (p : Position)
    (rest : List Char) :
    ∃ t, t.kind = k ∧ tokensFrom p (c :: rest) = t :: tokensFrom (p.advance c) rest :=
  ⟨_, rfl, (h.splits rest).tokensFrom_append p⟩

theorem Reads.stop_of_lowest {level : Precedence} {left : Expr} {t : Token} {ts : List Token}
    (h : Precedence.of t.kind = .lowest) : Reads (.operation level left) (t :: ts) left (t :: ts) :=
  .stop (by rw [nextKind_cons, h]; exact Nat.not_lt_zero _)

/-- Reading the text of the expression, with `rest` after it, is reading `rest` as what goes on with
an expression that is the same up to places. -/
def Expr.Reparses (e : Expr) : Prop :=
  ∀ (p : Position) (rest : List Char), Ends rest = true →
    ∃ (e' : Expr) (q : Position), e'.erase = e.erase ∧
      ∀ (level : Precedence) (r : Expr) (ts : List Token), level < .call →
        Reads (.operation level e') (tokensFrom q rest) r ts →
        Reads (.expression level) (tokensFrom p (e.text.toList ++ rest)) r ts

namespace Expr.Reparses

variable {e : Expr}

theorem of_operand (h : ∀ (p : Position) (rest : List Char), Ends rest = true →
      ∃ (e' : Expr) (q : Position), e'.erase = e.erase ∧
        Reads .operand (tokensFrom p (e.text.toList ++ rest)) e' (tokensFrom q rest)) :
    e.Reparses := by
  intro p rest hr
  obtain ⟨e', q, he, ho⟩ := h p rest hr
  exact ⟨e', q, he, fun level r ts _ h ↦ .expression ho h⟩

/-- Before a separator that does not go on with it the expression is read whole. -/
theorem closed (h : e.Reparses) {c : Char} {k : Kind} (hs : Separator c k)
    (hk : Precedence.of k = .lowest) (level : Precedence) (hl : level < .call) (p : Position)
    (rest : List Char) :
    ∃ (e' : Expr) (t : Token) (q : Position), e'.erase = e.erase ∧ t.kind = k ∧
      Reads (.expression level) (tokensFrom p (e.text.toList ++ c :: rest)) e'
        (t :: tokensFrom q rest) := by
  obtain ⟨e', q, he, hx⟩ := h p (c :: rest) (hs.ends rest)
  obtain ⟨t, ht, hts⟩ := hs.tokensFrom q rest
  rw [hts] at hx
  exact ⟨e', t, _, he, ht, hx level e' _ hl (.stop_of_lowest (ht ▸ hk))⟩

theorem closed_lowest (h : e.Reparses) {c : Char} {k : Kind} (hs : Separator c k)
    (hk : Precedence.of k = .lowest) (p : Position) (rest : List Char) :
    ∃ (e' : Expr) (t : Token) (q : Position), e'.erase = e.erase ∧ t.kind = k ∧
      Reads (.expression .lowest) (tokensFrom p (e.text.toList ++ c :: rest)) e'
        (t :: tokensFrom q rest) :=
  h.closed hs hk .lowest (by decide) p rest

end Expr.Reparses

/-- Expressions with commas between them and a closing bracket behind are read back. -/
theorem reads_expressions_append {c : Char} {k : Kind} (hc : Separator c k)
    (hk : Precedence.of k = .lowest) (e : Expr) (es : List Expr) (h : ∀ f ∈ e :: es, f.Reparses)
    (p : Position) (rest : List Char) :
    ∃ (e' : Expr) (es' : List Expr) (ts : List Token) (q : Position),
      Expr.eraseList (e' :: es') = Expr.eraseList (e :: es) ∧
      Reads (.expression .lowest) (tokensFrom p (Expr.listChars (e :: es) ++ c :: rest)) e' ts ∧
      Reads (.moreExpressions k) ts es' (tokensFrom q rest) := by
  induction es generalizing e p with
  | nil =>
    obtain ⟨e', t, q, he, ht, hx⟩ := (h e (by simp)).closed_lowest hc hk p rest
    exact ⟨e', [], _, q, congrArg (fun f ↦ [f]) he, hx, .lastExpression ht⟩
  | cons f es ih =>
    obtain ⟨e', t, q, he, ht, hx⟩ := (h e (by simp)).closed_lowest .comma rfl p
      (' ' :: (Expr.listChars (f :: es) ++ c :: rest))
    rw [tokensFrom_blank _ (by decide)] at hx
    obtain ⟨f', es', ts, q', hes, hf, hr⟩ := ih f (fun g hg ↦ h g (by simp [hg])) (q.advance ' ')
    refine ⟨e', f' :: es', _, q', ?_, ?_, .nextExpression ht hf hr⟩
    · exact congrArg₂ List.cons he hes
    · simpa [Expr.listChars] using hx

theorem reads_expressions {c : Char} {k : Kind} (hc : Separator c k)
    (hk : Precedence.of k = .lowest) {es : List Expr}
    (h : ∀ e ∈ es, e.Reparses) (p : Position) (rest : List Char) :
    ∃ (es' : List Expr) (q : Position), Expr.eraseList es' = Expr.eraseList es ∧
      Reads (.expressions k) (tokensFrom p (Expr.listChars es ++ c :: rest)) es'
        (tokensFrom q rest) := by
  cases es with
  | nil =>
    obtain ⟨t, ht, hts⟩ := hc.tokensFrom p rest
    exact ⟨[], _, rfl, by simpa [Expr.listChars, hts] using .noExpression ht⟩
  | cons e es =>
    obtain ⟨e', es', ts, q, hes, he, hr⟩ := reads_expressions_append hc hk e es h p rest
    exact ⟨e' :: es', q, hes, .firstExpression he hr⟩

/-- Keys and values with commas between them and the closing brace behind are read back. -/
theorem reads_pairs {ps : List (Expr × Expr)} (hk : ∀ q ∈ ps, q.1.Reparses)
    (hv : ∀ q ∈ ps, q.2.Reparses) (p : Position) (rest : List Char) :
    ∃ (ps' : List (Expr × Expr)) (q : Position), Expr.erasePairs ps' = Expr.erasePairs ps ∧
      Reads .pairs (tokensFrom p (Expr.pairChars ps ++ '}' :: rest)) ps'
        (tokensFrom q rest) := by
  induction ps generalizing p with
  | nil =>
    obtain ⟨t, ht, hts⟩ := Separator.rbrace.tokensFrom p rest
    exact ⟨[], _, rfl, by simpa [Expr.pairChars, hts] using .noPair ht⟩
  | cons pair ps ih =>
    obtain ⟨k, v⟩ := pair
    have hk' : k.Reparses := hk (k, v) (by simp)
    have hv' : v.Reparses := hv (k, v) (by simp)
    cases ps with
    | nil =>
      obtain ⟨k', t, q, hke, ht, hkr⟩ :=
        hk'.closed_lowest .colon rfl p (v.text.toList ++ '}' :: rest)
      obtain ⟨v', u, q', hve, hu, hvr⟩ := hv'.closed_lowest .rbrace rfl q rest
      refine ⟨[(k', v')], q', congrArg₂ (fun x y ↦ [(x, y)]) hke hve, ?_⟩
      simpa [Expr.pairChars] using Reads.lastPair hkr ht hvr hu
    | cons pair ps =>
      obtain ⟨k', t, q, hke, ht, hkr⟩ := hk'.closed_lowest .colon rfl p
        (v.text.toList ++ ',' :: ' ' :: (Expr.pairChars (pair :: ps) ++ '}' :: rest))
      obtain ⟨v', u, q', hve, hu, hvr⟩ := hv'.closed_lowest .comma rfl q
        (' ' :: (Expr.pairChars (pair :: ps) ++ '}' :: rest))
      obtain ⟨ps', q'', hps, hpr⟩ := ih (fun q hq ↦ hk q (by simp [hq]))
        (fun q hq ↦ hv q (by simp [hq])) (q'.advance ' ')
      rw [tokensFrom_blank _ (by decide)] at hvr
      refine ⟨(k', v') :: ps', q'', ?_, ?_⟩
      · exact congrArg₂ List.cons (Prod.ext hke hve) hps
      · simpa [Expr.pairChars] using Reads.nextPair hkr ht hvr hu hpr

/-- The end of a slice and the closing bracket are read back. -/
theorem reads_sliceEnd {stop : Option Expr} (h : ∀ e ∈ stop, e.Reparses) (p : Position)
    (rest : List Char) :
    ∃ (stop' : Option Expr) (q : Position), Expr.eraseOption stop' = Expr.eraseOption stop ∧
      Reads .sliceEnd (tokensFrom p (Expr.boundChars stop ++ ']' :: rest)) stop'
        (tokensFrom q rest) := by
  cases stop with
  | none =>
    obtain ⟨t, ht, hts⟩ :=
      Separator.rbracket.tokensFrom p rest
    exact ⟨none, _, rfl, by simpa [Expr.boundChars, hts] using .noSliceEnd ht⟩
  | some e =>
    obtain ⟨e', t, q, he, ht, hx⟩ := (h e rfl).closed_lowest .rbracket rfl p rest
    exact ⟨some e', q, congrArg some he, .sliceEnd hx ht⟩

/-- A slice is read back from behind its opening bracket. -/
theorem reads_slice {start stop : Option Expr} (hs : ∀ e ∈ start, e.Reparses)
    (ht : ∀ e ∈ stop, e.Reparses) (position p : Position) (target : Expr) (rest : List Char) :
    ∃ (start' stop' : Option Expr) (q : Position),
      Expr.eraseOption start' = Expr.eraseOption start ∧
      Expr.eraseOption stop' = Expr.eraseOption stop ∧
      Reads (.subscript position target)
        (tokensFrom p (Expr.boundChars start ++ ':' :: (Expr.boundChars stop ++
          ']' :: rest)))
        (.slice position target start' stop') (tokensFrom q rest) := by
  cases start with
  | none =>
    obtain ⟨t, hk, hts⟩ := Separator.colon.tokensFrom p
      (Expr.boundChars stop ++ ']' :: rest)
    obtain ⟨stop', q, hstop, hx⟩ := reads_sliceEnd ht (p.advance ':') rest
    exact ⟨none, stop', q, rfl, hstop, hts ▸ .sliceFromStart hk hx⟩
  | some e =>
    obtain ⟨e', t, q, he, hk, hf⟩ := (hs e rfl).closed_lowest .colon rfl p
      (Expr.boundChars stop ++ ']' :: rest)
    obtain ⟨stop', q', hstop, hx⟩ := reads_sliceEnd ht q rest
    exact ⟨some e', stop', q', congrArg some he, hstop, .slice hf hk hx⟩

/-! ### One rule for each kind of expression -/

namespace Expr.Reparses

/-- An operation in brackets is read back when what stands between the brackets is. -/
theorem of_brackets {e : Expr} {w : List Char} (hw : e.text.toList = '(' :: (w ++ [')']))
    (h : ∀ (p : Position) (rest : List Char), ∃ (e' : Expr) (t : Token) (q : Position),
      e'.erase = e.erase ∧ t.kind = .rparen ∧
        Reads (.expression .lowest) (tokensFrom p (w ++ ')' :: rest)) e' (t :: tokensFrom q rest)) :
    e.Reparses := by
  refine .of_operand fun p rest _ ↦ ?_
  obtain ⟨t, ht, hts⟩ := Separator.lparen.tokensFrom p (w ++ ')' :: rest)
  obtain ⟨e', u, q, he, hu, hr⟩ := h (p.advance '(') rest
  refine ⟨e', q, he, ?_⟩
  have hp : e.text.toList ++ rest = '(' :: (w ++ ')' :: rest) := by simp [hw]
  rw [hp, hts]
  exact .group ht hr hu

/-- An operation that starts with its first operand: the operand is read back and the reader goes on
with what stands behind it. -/
theorem of_extension {e l : Expr} {w : List Char}
    (hw : e.text.toList = '(' :: (l.text.toList ++ w ++ [')'])) (hl : l.Reparses)
    (he : ∀ rest, Ends (w ++ ')' :: rest) = true)
    (h : ∀ (l' : Expr) (p : Position) (rest : List Char), l'.erase = l.erase →
      ∃ (t : Token) (ts : List Token) (e' : Expr) (u : Token) (q : Position),
        tokensFrom p (w ++ ')' :: rest) = t :: ts ∧ .lowest < Precedence.of t.kind ∧
          e'.erase = e.erase ∧ u.kind = .rparen ∧
          Reads (.extension t l') ts e' (u :: tokensFrom q rest)) :
    e.Reparses := by
  refine .of_brackets hw fun p rest ↦ ?_
  obtain ⟨l', q, hle, hx⟩ := hl p (w ++ ')' :: rest) (he rest)
  obtain ⟨t, ts, e', u, q', hts, ht, hee, hu, hr⟩ := h l' q rest hle
  refine ⟨e', u, q', hee, hu, ?_⟩
  rw [hts] at hx
  rw [List.append_assoc]
  exact hx .lowest e' _ (by decide) (.goOn ht hr (.stop_of_lowest (by rw [hu]; rfl)))

/-- An expression whose text is one token. -/
theorem of_token {e : Expr} {k : Kind} (hk : k ≠ .str)
    (hs : ∀ rest, Ends rest = true → Splits k e.text.toList rest)
    (hr : ∀ (t : Token) (ts : List Token), t.kind = k → t.literal = e.text →
      ∃ e' : Expr, e'.erase = e.erase ∧ Reads .operand (t :: ts) e' ts) : e.Reparses := by
  refine .of_operand fun p rest h ↦ ?_
  have hl : String.ofList (Scanner.literal k e.text.toList) = e.text := by
    rw [literal_of_ne hk, String.ofList_toList]
  obtain ⟨e', he, hx⟩ := hr ⟨k, e.text, p⟩ (tokensFrom (p.after e.text.toList) rest) rfl rfl
  refine ⟨e', p.after e.text.toList, he, ?_⟩
  rw [(hs rest h).tokensFrom_append, hl]
  exact hx

variable {p : Position}

theorem name {text : String} (h : IsLexeme .ident text) : (Expr.name p text).Reparses :=
  .of_token (by decide) (fun _ hr ↦ h.splits_ident hr)
    fun t _ hk hl ↦ ⟨.name t.position t.literal, congrArg (Expr.name default) hl, .name hk⟩

theorem int {v : Int64} (h : 0 ≤ v.toInt) : (Expr.int p v).Reparses := by
  obtain ⟨n, hn, ht⟩ := Word.exists_text_eq_repr h
  refine .of_token (k := .int) (by decide) (fun rest hr ↦ ?_)
    fun t ts hk hl ↦ ⟨.int t.position v, rfl, .int hk ?_⟩
  · change Splits .int (Word.text v).toList rest
    rw [ht]
    exact splits_natural n hr
  · change t.literal = Word.text v at hl
    rw [hl, ht, Decimal.readInt?_repr, Option.bind_some, Word.ofInt?_eq_some_iff, hn]

theorem bool {b : Bool} : (Expr.bool p b).Reparses := by
  refine .of_token (k := if b then .trueWord else .falseWord) (by cases b <;> decide) ?_
    fun t _ hk _ ↦ ⟨.bool t.position b, rfl, .bool hk⟩
  intro rest hr
  cases b with
  | true => exact splits_keyword (by decide : ("true".toList, Kind.trueWord) ∈ Kind.keywords) hr
  | false => exact splits_keyword (by decide : ("false".toList, Kind.falseWord) ∈ Kind.keywords) hr

theorem unary {operator : UnaryOperator} {e : Expr} (hp : e.Plain) (h : e.Reparses) :
    (Expr.unary p operator e).Reparses := by
  refine .of_brackets (toList_text_unary operator e) fun p rest ↦ ?_
  obtain ⟨k, hk, hs⟩ := operator.splits (hp.breaks (')' :: rest))
  obtain ⟨e', t, q, he, ht, hr⟩ :=
    h.closed .rparen rfl .unary (by decide) (p.after operator.symbol.toList) rest
  refine ⟨.unary p operator e', t, q, congrArg (Expr.unary default operator) he, ht, ?_⟩
  rw [List.append_assoc, hs.tokensFrom_append]
  exact .expression (.unary hk hr) (.stop_of_lowest (by rw [ht]; rfl))

theorem stepBefore {direction : StepDirection} {e : Expr} (hp : e.Plain) (h : e.Reparses) :
    (Expr.step p direction .before e).Reparses := by
  refine .of_brackets (toList_text_stepBefore direction e) fun p rest ↦ ?_
  obtain ⟨k, hk, hs⟩ := direction.splits (hp.breaks (')' :: rest))
  obtain ⟨e', t, q, he, ht, hr⟩ :=
    h.closed .rparen rfl .unary (by decide) (p.after direction.symbol.toList) rest
  refine ⟨.step p direction .before e', t, q, congrArg (Expr.step default direction .before) he, ht,
    ?_⟩
  rw [List.append_assoc, hs.tokensFrom_append]
  exact .expression (.stepBefore hk hr) (.stop_of_lowest (by rw [ht]; rfl))

theorem stepAfter {direction : StepDirection} {e : Expr} (h : e.Reparses) :
    (Expr.step p direction .after e).Reparses := by
  refine .of_extension (toList_text_stepAfter direction e) h ?_ fun e' p rest he ↦ ?_
  · cases direction <;> exact fun rest ↦ rfl
  obtain ⟨k, hk, hs⟩ := direction.splits (breaks_cons (by decide : isSymbolBreak ')' = true) rest)
  obtain ⟨t, ht, hts⟩ := Separator.rparen.tokensFrom (p.after direction.symbol.toList) rest
  refine ⟨_, _, .step p direction .after e', t, (p.after direction.symbol.toList).advance ')',
    hs.tokensFrom_append p, ?_, congrArg (Expr.step default direction .after) he, ht, ?_⟩
  · cases k <;> simp_all [StepDirection.ofKind?] <;> decide
  · rw [hts]
    exact .stepAfter hk

theorem binary {operator : BinaryOperator} {l r : Expr} (hl : l.Reparses) (hr : r.Reparses) :
    (Expr.binary p operator l r).Reparses := by
  refine .of_extension (toList_text_binary operator l r) hl ?_ fun l' p rest hle ↦ ?_
  · exact fun rest ↦ ends_cons _ (by decide) (by decide) (by decide)
  obtain ⟨k, hk, hs⟩ := operator.splits (r.text.toList ++ ')' :: rest)
  have hlevel : .lowest < Precedence.of k ∧ Precedence.of k < .call := by
    cases k <;> simp_all [BinaryOperator.ofKind?] <;> decide
  have hts := (tokensFrom_blank p (by decide : isBlank ' ' = true) _).trans (hs.tokensFrom_append _)
  obtain ⟨r', t, q, hre, ht, hx⟩ := hr.closed .rparen rfl (Precedence.of k) hlevel.2
    (((p.advance ' ').after operator.symbol.toList).advance ' ') rest
  rw [← tokensFrom_blank _ (by decide : isBlank ' ' = true)] at hx
  exact ⟨_, _, .binary _ operator l' r', t, q, by simpa using hts, hlevel.1,
    congrArg₂ (Expr.binary default operator) hle hre, ht, .binary hk hx⟩

theorem range {bound : RangeBound} {l r : Expr} (hp : r.Plain) (hl : l.Reparses) (hr : r.Reparses) :
    (Expr.range p bound l r).Reparses := by
  refine .of_extension (toList_text_range bound l r) hl ?_ fun l' p rest hle ↦ ?_
  · cases bound <;> exact fun rest ↦ rfl
  obtain ⟨k, hk, hs⟩ := bound.splits (hp.breaks (')' :: rest))
  have hlevel : .lowest < Precedence.of k := by
    cases k <;> simp_all [RangeBound.ofKind?] <;> decide
  obtain ⟨r', t, q, hre, ht, hx⟩ :=
    hr.closed .rparen rfl .range (by decide) (p.after bound.symbol.toList) rest
  exact ⟨_, _, .range _ bound l' r', t, q, by simpa using hs.tokensFrom_append p, hlevel,
    congrArg₂ (Expr.range default bound) hle hre, ht, .range hk hx⟩

theorem index {a k : Expr} (ha : a.Reparses) (hk : k.Reparses) : (Expr.index p a k).Reparses := by
  refine .of_extension (toList_text_index a k) ha ?_ fun a' p rest hae ↦ ?_
  · exact fun rest ↦ ends_cons _ (by decide) (by decide) (by decide)
  obtain ⟨t, ht, hts⟩ := Separator.lbracket.tokensFrom p (k.text.toList ++ ']' :: ')' :: rest)
  obtain ⟨k', u, q, hke, hu, hx⟩ := hk.closed_lowest .rbracket rfl (p.advance '[') (')' :: rest)
  obtain ⟨v, hv, hvs⟩ := Separator.rparen.tokensFrom q rest
  rw [hvs] at hx
  exact ⟨t, _, .index _ a' k', v, _, by simpa using hts, by rw [ht]; decide,
    congrArg₂ (Expr.index default) hae hke, hv, .element ht (.index hx hu)⟩

theorem slice {a : Expr} {start stop : Option Expr} (ha : a.Reparses)
    (hs : ∀ e ∈ start, e.Reparses) (ht : ∀ e ∈ stop, e.Reparses) :
    (Expr.slice p a start stop).Reparses := by
  refine .of_extension (toList_text_slice a start stop) ha ?_ fun a' p rest hae ↦ ?_
  · exact fun rest ↦ ends_cons _ (by decide) (by decide) (by decide)
  obtain ⟨t, hk, hts⟩ := Separator.lbracket.tokensFrom p
    (boundChars start ++ ':' :: (boundChars stop ++ ']' :: ')' :: rest))
  obtain ⟨start', stop', q, hstart, hstop, hx⟩ :=
    reads_slice hs ht t.position (p.advance '[') a' (')' :: rest)
  obtain ⟨v, hv, hvs⟩ := Separator.rparen.tokensFrom q rest
  rw [hvs] at hx
  exact ⟨t, _, .slice _ a' start' stop', v, _, by simpa using hts, by rw [hk]; decide,
    by rw [erase_slice, erase_slice, hae, hstart, hstop], hv, .element hk hx⟩

theorem call {f : Expr} {es : List Expr} (hf : f.Reparses) (hs : ∀ e ∈ es, e.Reparses) :
    (Expr.call p f es).Reparses := by
  intro p rest _
  obtain ⟨f', q, hfe, hx⟩ := hf p ('(' :: (listChars es ++ ')' :: rest))
    (ends_cons _ (by decide) (by decide) (by decide))
  obtain ⟨t, ht, hts⟩ := Separator.lparen.tokensFrom q (listChars es ++ ')' :: rest)
  obtain ⟨es', q', hes, hr⟩ := reads_expressions .rparen rfl hs (q.advance '(') rest
  rw [hts] at hx
  refine ⟨.call t.position f' es', q', congrArg₂ (Expr.call default) hfe hes,
    fun level r ts hl h ↦ ?_⟩
  have hg := hx level r ts hl (.goOn (by rw [ht]; exact hl) (.call ht hr) h)
  simpa [toList_text_call] using hg

theorem array {es : List Expr} (hs : ∀ e ∈ es, e.Reparses) : (Expr.array p es).Reparses := by
  refine .of_operand fun p rest _ ↦ ?_
  obtain ⟨t, ht, hts⟩ := Separator.lbracket.tokensFrom p (listChars es ++ ']' :: rest)
  obtain ⟨es', q, hes, hr⟩ := reads_expressions .rbracket rfl hs (p.advance '[') rest
  refine ⟨.array t.position es', q, congrArg (Expr.array default) hes, ?_⟩
  simpa [toList_text_array, hts] using .array ht hr

theorem hash {ps : List (Expr × Expr)} (hk : ∀ q ∈ ps, q.1.Reparses)
    (hv : ∀ q ∈ ps, q.2.Reparses) : (Expr.hash p ps).Reparses := by
  refine .of_operand fun p rest _ ↦ ?_
  obtain ⟨t, ht, hts⟩ := Separator.lbrace.tokensFrom p (pairChars ps ++ '}' :: rest)
  obtain ⟨ps', q, hps, hr⟩ := reads_pairs hk hv (p.advance '{') rest
  refine ⟨.hash t.position ps', q, congrArg (Expr.hash default) hps, ?_⟩
  simpa [toList_text_hash, hts] using .hash ht hr

end Expr.Reparses

/-- Every plain expression is read back from its text. -/
theorem Expr.Plain.reparses {e : Expr} (h : e.Plain) : e.Reparses := by
  induction h with
  | name h => exact .name h
  | int h => exact .int h
  | bool => exact .bool
  | unary he ih => exact .unary he ih
  | binary _ _ ihl ihr => exact .binary ihl ihr
  | call _ _ ihf ihs => exact .call ihf ihs
  | array _ ihs => exact .array ihs
  | hash _ _ ihk ihv => exact .hash ihk ihv
  | index _ _ iha ihk => exact .index iha ihk
  | slice _ _ _ iha ihs iht => exact .slice iha ihs iht
  | @step p direction place e he ih =>
    cases place with
    | before => exact .stepBefore he ih
    | after => exact .stepAfter ih
  | range _ hr ihl ihr => exact .range hr ihl ihr

/-! ### Statements and programs -/

/-- The word and the name that start a binding. -/
theorem tokensFrom_let {n : Name} (hn : IsLexeme .ident n.text) (p : Position) (rest : List Char)
    (hr : Ends rest = true) :
    ∃ (t u : Token) (q : Position), t.kind = .letWord ∧ u.kind = .ident ∧ u.literal = n.text ∧
      tokensFrom p ('l' :: 'e' :: 't' :: ' ' :: (n.text.toList ++ rest)) =
        t :: u :: tokensFrom q rest := by
  have hw : Splits .letWord ['l', 'e', 't'] (' ' :: (n.text.toList ++ rest)) :=
    splits_keyword (by decide) (ends_cons _ (by decide) (by decide) (by decide))
  have hts := hw.tokensFrom_append p
  rw [tokensFrom_blank _ (by decide : isBlank ' ' = true), (hn.splits_ident hr).tokensFrom_append,
    literal_of_ne (by decide) n.text.toList, String.ofList_toList] at hts
  exact ⟨_, _, _, rfl, rfl, rfl, hts⟩

/-- The sign of a binding, its value and the semicolon. -/
theorem reads_assigned {e : Expr} (he : e.Reparses) (p : Position) (rest : List Char) :
    ∃ (t : Token) (ts : List Token) (e' : Expr) (u : Token) (q : Position),
      t.kind = .assign ∧ u.kind = .semicolon ∧ e'.erase = e.erase ∧
      tokensFrom p (' ' :: '=' :: ' ' :: (e.text.toList ++ ';' :: rest)) = t :: ts ∧
      Reads (.expression .lowest) ts e' (u :: tokensFrom q rest) := by
  have hs : Splits .assign ['='] (' ' :: (e.text.toList ++ ';' :: rest)) :=
    splits_symbol (by decide) (breaks_cons (by decide) _)
  have hts := (tokensFrom_blank p (by decide : isBlank ' ' = true) _).trans (hs.tokensFrom_append _)
  obtain ⟨e', u, q, hee, hu, hx⟩ := he.closed_lowest .semicolon rfl
    (((p.advance ' ').after ['=']).advance ' ') rest
  rw [← tokensFrom_blank _ (by decide : isBlank ' ' = true)] at hx
  exact ⟨_, _, e', u, q, rfl, hu, hee, hts, hx⟩

/-- Reading the text of the statement, with `rest` after it, gives the statement up to places and
stops before `rest`. -/
def Stmt.Reparses (s : Stmt) : Prop :=
  ∀ (p : Position) (rest : List Char), ∃ (s' : Stmt) (q : Position), s'.erase = s.erase ∧
    Reads .statement (tokensFrom p (s.text.toList ++ rest)) s' (tokensFrom q rest)

namespace Stmt.Reparses

variable {p : Position}

theorem bind {n : Name} {e : Expr} (hn : IsLexeme .ident n.text) (he : e.Reparses) :
    (Stmt.bind p n e).Reparses := by
  intro p rest
  obtain ⟨t, u, q, ht, hu, hl, hts⟩ :=
    tokensFrom_let hn p (' ' :: '=' :: ' ' :: (e.text.toList ++ ';' :: rest))
      (ends_cons _ (by decide) (by decide) (by decide))
  obtain ⟨v, ts, e', w, q', hv, hw, hee, hvs, hx⟩ := reads_assigned he q rest
  refine ⟨.bind t.position u.binder e', q', ?_, ?_⟩
  · exact congrArg₂ (Stmt.bind default) (congrArg (Name.mk · default) hl) hee
  · rw [hvs] at hts
    simpa [toList_text_bind, hts] using Reads.closedStatement (.bind ht hu hv hx) rfl hw

theorem store {n : Name} {k e : Expr} (hn : IsLexeme .ident n.text) (hk : k.Reparses)
    (he : e.Reparses) : (Stmt.store p n k e).Reparses := by
  intro p rest
  obtain ⟨t, u, q, ht, hu, hl, hts⟩ := tokensFrom_let hn p
    ('[' :: (k.text.toList ++ ']' :: ' ' :: '=' :: ' ' :: (e.text.toList ++ ';' :: rest)))
    (ends_cons _ (by decide) (by decide) (by decide))
  obtain ⟨v, hv, hvs⟩ := Separator.lbracket.tokensFrom q
    (k.text.toList ++ ']' :: ' ' :: '=' :: ' ' :: (e.text.toList ++ ';' :: rest))
  obtain ⟨k', w, q₁, hke, hw, hkx⟩ := hk.closed_lowest .rbracket rfl (q.advance '[')
    (' ' :: '=' :: ' ' :: (e.text.toList ++ ';' :: rest))
  obtain ⟨x, ts, e', y, q₂, hx, hy, hee, hxs, hex⟩ := reads_assigned he q₁ rest
  rw [hvs] at hts
  rw [hxs] at hkx
  refine ⟨.store t.position u.binder k' e', q₂, ?_, ?_⟩
  · change Stmt.store _ ⟨u.literal, default⟩ k'.erase e'.erase = Stmt.store _ _ k.erase e.erase
    rw [hl, hke, hee]
    rfl
  · have hr := Reads.closedStatement (.store ht hu hv hkx hw hx hex) rfl hy
    simpa [toList_text_store, hts] using hr

theorem ret {e : Expr} (he : e.Reparses) : (Stmt.ret p e).Reparses := by
  intro p rest
  have hs : Splits .returnWord ['r', 'e', 't', 'u', 'r', 'n']
      (' ' :: (e.text.toList ++ ';' :: rest)) :=
    splits_keyword (by decide) (ends_cons _ (by decide) (by decide) (by decide))
  have hts := hs.tokensFrom_append p
  rw [tokensFrom_blank _ (by decide : isBlank ' ' = true)] at hts
  obtain ⟨e', t, q, hee, ht, hx⟩ := he.closed_lowest .semicolon rfl
    ((p.after ['r', 'e', 't', 'u', 'r', 'n']).advance ' ') rest
  refine ⟨.ret p e', q, congrArg (Stmt.ret default) hee, ?_⟩
  simp only [toList_text_ret, List.cons_append, List.append_assoc, List.nil_append] at hts ⊢
  rw [hts]
  exact .closedStatement (.ret rfl hx) rfl ht

theorem comment {text : String} (h : IsLexeme .comment text) : (Stmt.comment p text).Reparses := by
  intro p rest
  have hts := (h.splits_comment rest).tokensFrom_append p
  rw [literal_of_ne (by decide), String.ofList_toList,
    tokensFrom_blank _ (by decide : isBlank '\n' = true)] at hts
  refine ⟨.comment p text, (p.after text.toList).advance '\n', rfl, ?_⟩
  rw [toList_text_comment, List.append_assoc, List.singleton_append, hts]
  exact .commentStatement (.comment rfl) rfl

end Stmt.Reparses

theorem Stmt.Plain.reparses {s : Stmt} (h : s.Plain) : s.Reparses := by
  cases h with
  | bind hn he => exact .bind hn he.reparses
  | store hn hk he => exact .store hn hk.reparses he.reparses
  | ret he => exact .ret he.reparses
  | comment h => exact .comment h

/-- A plain expression at the end of a text is a statement. -/
theorem Expr.Plain.reads_statement {e : Expr} (h : e.Plain) (p : Position) :
    ∃ s : Stmt, s.erase = .expr default e.erase ∧
      Reads .statement (tokensFrom p e.text.toList) s [] := by
  obtain ⟨e', q, he, hx⟩ := h.reparses p [] rfl
  have hr := hx .lowest e' [] (by decide) (by simpa using .stop (by decide))
  rw [List.append_nil] at hr
  have hl := hr.length_lt rfl
  cases hts : tokensFrom p e.text.toList with
  | nil => simp [hts] at hl
  | cons t ts =>
    rw [hts] at hr
    exact ⟨.expr t.position e', congrArg (Stmt.expr default) he,
      .openStatement (.expr hr) rfl (by decide)⟩

/-- The text of a plain program is derived as the program, up to places. -/
theorem Program.Plain.readsProgram {program : Program} (h : program.Plain) (p : Position) :
    ∃ program' : Program, program'.erase = program.erase ∧
      ReadsProgram (tokensFrom p (Stmt.listText program).toList) program' := by
  induction h generalizing p with
  | nil => exact ⟨[], rfl, by simpa [Stmt.listText] using .nil⟩
  | last he =>
    obtain ⟨s, hs, hr⟩ := he.reads_statement p
    refine ⟨[s], congrArg (fun s ↦ [s]) hs, ?_⟩
    rw [Stmt.listText_singleton]
    exact .cons hr .nil
  | @cons s ss hs hr ih =>
    obtain ⟨s', q, hse, hx⟩ := hs.reparses p (Stmt.listText ss).toList
    obtain ⟨ss', hsse, hxs⟩ := ih q
    refine ⟨s' :: ss', congrArg₂ List.cons hse hsse, ?_⟩
    rw [Stmt.toList_listText_cons]
    exact .cons hx hxs

/-- The text of a plain expression, of a plain statement and of a plain program is read without
errors, and what is read is the tree that was printed, up to places. -/
theorem ofSource_text :
    (∀ e : Expr, e.Plain → ∃ s : Stmt, s.erase = .expr default e.erase ∧
      Parsed.ofSource e.text = ⟨[s], []⟩) ∧
    (∀ s : Stmt, s.Plain → ∃ s' : Stmt, s'.erase = s.erase ∧
      Parsed.ofSource s.text = ⟨[s'], []⟩) ∧
    (∀ program : Program, program.Plain → ∃ program' : Program, program'.erase = program.erase ∧
      Parsed.ofSource (Stmt.listText program) = ⟨program', []⟩) := by
  refine ⟨fun e he ↦ ?_, fun s hs ↦ ?_, fun program hp ↦ ?_⟩
  · obtain ⟨s, hse, hr⟩ := he.reads_statement .start
    exact ⟨s, hse, (Parsed.ofSource_eq_iff _ _).mpr (.cons hr .nil)⟩
  · obtain ⟨s', q, hse, hr⟩ := hs.reparses .start []
    rw [List.append_nil, tokensFrom_nil] at hr
    exact ⟨s', hse, (Parsed.ofSource_eq_iff _ _).mpr (.cons hr .nil)⟩
  · obtain ⟨program', he, hr⟩ := hp.readsProgram .start
    exact ⟨program', he, (Parsed.ofSource_eq_iff _ _).mpr hr⟩

/-- A store under a hyphenated name, a comment and a range, each with nested operations. -/
theorem ofSource_text_store :
    let negated :=
      Expr.unary default .negate (.call default (.name default "f") [.bool default true])
    let program : Program :=
      [.store default ⟨"a-b", default⟩ (.step default .down .after (.name default "a"))
          (.hash default [(.int default 1, negated)]),
        .comment default "# note",
        .expr default (.range default .exclusive (.int default 1) (.name default "n"))]
    program.Plain ∧ ∃ program' : Program, program'.erase = program.erase ∧
      Parsed.ofSource (Stmt.listText program) = ⟨program', []⟩ := by
  intro negated program
  have hn : ∀ text ∈ ["a-b", "a", "f", "n"], IsLexeme .ident text := by decide +kernel
  have hneg : negated.Plain :=
    .unary (.call (.name (hn "f" (by decide))) (by simpa using .bool))
  have hstore : program.head!.Plain :=
    .store (hn "a-b" (by decide)) (.step (.name (hn "a" (by decide))))
      (.hash (by simpa using .int (by decide)) (by simpa using hneg))
  have hp : program.Plain :=
    .cons hstore (.cons (.comment (by decide +kernel))
      (.last (.range (.int (by decide)) (.name (hn "n" (by decide))))))
  exact ⟨hp, ofSource_text.2.2 program hp⟩

end Treewalk
