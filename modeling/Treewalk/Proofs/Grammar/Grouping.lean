import Treewalk.Proofs.Grammar.Acceptance
import Treewalk.Proofs.Token.Numerals

/-!
# Operators group by how tightly they bind

A chain is a row of operands with operators between them, and an operand is one token or a chain in
brackets. There are many ways to group a chain. A grouping respects the levels of binding if at each
of its operations the signs outside brackets bind at least as tightly on the left and more tightly
on the right, so that signs of one level group to the left. Every chain has one grouping that does,
and no other (`Grouping.Resolves.unique`), and reading the chain gives the tree of this grouping
(`ofSource_chain`).

The grouping is found by adding the operands from left to right (`Grouping.push`). It is unique
because the signs outside brackets are seen from the tokens alone, by counting brackets
(`Grouping.signsOutside_reading`): if two groupings had different signs at the top, each of these
signs would have to bind as tightly as the other and one of them more (`Grouping.not_shifted`).
-/

set_option autoImplicit false
set_option relaxedAutoImplicit false

namespace Treewalk

/-! ### Chains -/

/-- Whether a token of this kind stands between two operands: the binary operators and the signs of
ranges. -/
def Kind.isInfix (k : Kind) : Bool :=
  (BinaryOperator.ofKind? k).isSome || (RangeBound.ofKind? k).isSome

/-- The token is an operand: a name, a string, a truth value, or an integer that is a word. -/
def Token.IsAtom (t : Token) : Prop :=
  t.kind = .ident ∨ t.kind = .str ∨ t.kind = .trueWord ∨ t.kind = .falseWord ∨
    t.kind = .int ∧ Decimal.digitsValue t.literal.toList ≤ 0x7fffffffffffffff

instance (t : Token) : Decidable t.IsAtom :=
  inferInstanceAs (Decidable (_ ∨ _))

/-- Operands, given by their tokens, with operators between them. -/
def chain (first : List Token) (rest : List (Token × List Token)) : List Token :=
  first ++ rest.flatMap fun next ↦ next.1 :: next.2

/-- The tokens are one operand of a chain. -/
inductive IsOperand : List Token → Prop
  | atom {t : Token} (ht : t.IsAtom) : IsOperand [t]
  | brackets {left right : Token} {first : List Token} {rest : List (Token × List Token)}
      (hleft : left.kind = .lparen) (hfirst : IsOperand first)
      (hsigns : ∀ next ∈ rest, next.1.kind.isInfix = true)
      (hrest : ∀ next ∈ rest, IsOperand next.2) (hright : right.kind = .rparen) :
      IsOperand (left :: chain first rest ++ [right])

/-! ### Groupings -/

/-- A way to group a chain. Brackets are kept, so that what stands in them is told from what does
not. -/
inductive Grouping where
  | atom (t : Token)
  | brackets (left : Token) (inner : Grouping) (right : Token)
  | operation (sign : Token) (left right : Grouping)

/-- The tree of an operand of one token. -/
def Token.atom (t : Token) : Expr :=
  match t.kind with
  | .int => .int t.position (Int64.ofInt (Decimal.digitsValue t.literal.toList))
  | .str => .str t.position t.literal
  | .trueWord => .bool t.position true
  | .falseWord => .bool t.position false
  | _ => .name t.position t.literal

/-- The tree of an operation whose sign is this token. -/
def Token.operation (t : Token) (left right : Expr) : Expr :=
  match RangeBound.ofKind? t.kind with
  | some bound => .range t.position bound left right
  | none => .binary t.position ((BinaryOperator.ofKind? t.kind).getD default) left right

namespace Grouping

/-- The tokens of a grouping from left to right. -/
def reading : Grouping → List Token
  | atom t => [t]
  | brackets left inner right => left :: inner.reading ++ [right]
  | operation sign left right => left.reading ++ sign :: right.reading

/-- The tree of a grouping, which has no brackets. -/
def expr : Grouping → Expr
  | atom t => t.atom
  | brackets _ inner _ => inner.expr
  | operation sign left right => sign.operation left.expr right.expr

/-- The signs of a grouping that are not in brackets. -/
def signs : Grouping → List Kind
  | atom _ | brackets _ _ _ => []
  | operation sign left right => left.signs ++ sign.kind :: right.signs

/-- Operands are operands, brackets are brackets and signs are signs. -/
def IsProper : Grouping → Prop
  | atom t => t.IsAtom
  | brackets left inner right => left.kind = .lparen ∧ inner.IsProper ∧ right.kind = .rparen
  | operation sign left right => sign.kind.isInfix = true ∧ left.IsProper ∧ right.IsProper

/-- At every operation, the signs outside brackets bind at least as tightly in the left operand and
more tightly in the right one. -/
def Respects : Grouping → Prop
  | atom _ => True
  | brackets _ inner _ => inner.Respects
  | operation sign left right =>
    (∀ k ∈ left.signs, (Precedence.of sign.kind).rank ≤ (Precedence.of k).rank) ∧
      (∀ k ∈ right.signs, (Precedence.of sign.kind).rank < (Precedence.of k).rank) ∧
      left.Respects ∧ right.Respects

/-- The grouping is one of these tokens and respects the levels of binding. -/
structure Resolves (g : Grouping) (ts : List Token) : Prop where
  proper : g.IsProper
  reading_eq : g.reading = ts
  respects : g.Respects

end Grouping

/-! ### Reading a grouping -/

theorem Kind.lowest_lt_of_isInfix {k : Kind} (h : k.isInfix = true) :
    .lowest < Precedence.of k := by
  revert h
  cases k <;> decide

theorem Kind.bracketing_of_isInfix {t : Token} (h : t.kind.isInfix = true) : t.bracketing = 0 := by
  unfold Token.bracketing
  revert h
  cases t.kind <;> decide

/-- A sign makes the operation of what stands on its two sides. -/
theorem Reads.operation_of_isInfix {t : Token} {left e : Expr} {ts ts' : List Token}
    (ht : t.kind.isInfix = true) (h : Reads (.expression (Precedence.of t.kind)) ts e ts') :
    Reads (.extension t left) ts (t.operation left e) ts' := by
  unfold Token.operation
  cases hrange : RangeBound.ofKind? t.kind with
  | some bound =>
    have hlevel : Precedence.of t.kind = .range := by
      revert hrange
      cases t.kind <;> simp [RangeBound.ofKind?, Precedence.of]
    rw [hlevel] at h
    exact .range hrange h
  | none =>
    cases hbinary : BinaryOperator.ofKind? t.kind with
    | some operator => exact .binary hbinary h
    | none => simp [Kind.isInfix, hrange, hbinary] at ht

/-- The texts of integers are read as the numbers that their digits denote. -/
def Token.IsNumeral (t : Token) : Prop :=
  t.kind = .int →
    Decimal.readInt? t.literal.toList = some (Decimal.digitsValue t.literal.toList : Int)

theorem Token.IsAtom.reads {t : Token} (ht : t.IsAtom) (hn : t.IsNumeral) (ts : List Token) :
    Reads .operand (t :: ts) t.atom ts := by
  unfold Token.atom
  rcases ht with hk | hk | hk | hk | ⟨hk, hle⟩
  · rw [hk]
    exact .name hk
  · rw [hk]
    exact .str hk
  · rw [hk]
    exact .bool (b := true) hk
  · rw [hk]
    exact .bool (b := false) hk
  · rw [hk]
    refine .int hk ?_
    have hfits : Word.Fits (Decimal.digitsValue t.literal.toList) := by
      constructor <;> omega
    rw [hn hk, Option.bind_some, Word.ofInt?, if_pos hfits]

namespace Grouping

theorem isInfix_of_mem_signs {g : Grouping} (h : g.IsProper) {k : Kind} (hk : k ∈ g.signs) :
    k.isInfix = true := by
  induction g with
  | atom | brackets => cases hk
  | operation sign left right ihl ihr =>
    obtain ⟨hsign, hleft, hright⟩ := h
    rcases List.mem_append.mp hk with hk | hk
    · exact ihl hleft hk
    · rcases List.mem_cons.mp hk with rfl | hk
      · exact hsign
      · exact ihr hright hk

/-- Reading the tokens of a grouping is going on with its tree, if its signs bind more tightly than
the level and at least as tightly as the token behind it. -/
theorem reads {g : Grouping} (hproper : g.IsProper) (hrespects : g.Respects)
    (hn : ∀ t ∈ g.reading, t.IsNumeral) {level : Precedence}
    (hlevel : ∀ k ∈ g.signs, level < Precedence.of k) {rest ts : List Token} {r : Expr}
    (hnext : ∀ k ∈ g.signs, (Precedence.of (nextKind rest)).rank ≤ (Precedence.of k).rank)
    (h : Reads (.operation level g.expr) rest r ts) :
    Reads (.expression level) (g.reading ++ rest) r ts := by
  induction g generalizing level rest r ts with
  | atom t => exact .expression (hproper.reads (hn t (by simp [reading])) rest) h
  | brackets left inner right ih =>
    obtain ⟨hleft, hinner, hright⟩ := hproper
    have hlowest : Precedence.of (nextKind (right :: rest)) = .lowest := by
      rw [nextKind_cons, hright]
      rfl
    have hread : Reads (.expression .lowest) (inner.reading ++ right :: rest) inner.expr
        (right :: rest) := by
      refine ih hinner hrespects (fun t ht ↦ hn t (by simp [reading, ht])) (fun k hk ↦ ?_)
        (fun k _ ↦ ?_) (.stop ?_)
      · exact Kind.lowest_lt_of_isInfix (isInfix_of_mem_signs hinner hk)
      · rw [hlowest]
        exact Nat.zero_le _
      · rw [hlowest]
        exact Nat.not_lt_zero _
    have hgroup := Reads.expression (.group hleft hread hright) h
    simpa [reading] using hgroup
  | operation sign left right ihl ihr =>
    obtain ⟨hsign, hleft, hright⟩ := hproper
    obtain ⟨hlooser, htighter, hrl, hrr⟩ := hrespects
    have hself : sign.kind ∈ (operation sign left right).signs := by simp [signs]
    -- The right operand is read at the level of the sign and stops at the next token.
    have hoperand : Reads (.expression (Precedence.of sign.kind)) (right.reading ++ rest) right.expr
        rest := by
      refine ihr hright hrr (fun t ht ↦ hn t (by simp [reading, ht])) htighter (fun k hk ↦ ?_)
        (.stop (Nat.not_lt.mpr (hnext _ hself)))
      exact Nat.le_trans (hnext _ hself) (Nat.le_of_lt (htighter k hk))
    -- The left operand is read at the outer level and goes on with the sign.
    have hrest := Reads.goOn (hlevel _ hself) (Reads.operation_of_isInfix hsign hoperand) h
    have hread :
        Reads (.expression level) (left.reading ++ sign :: (right.reading ++ rest)) r ts := by
      refine ihl hleft hrl (fun t ht ↦ hn t (by simp [reading, ht]))
        (fun k hk ↦ hlevel k (by simp [signs, hk])) ?_ hrest
      simpa using hlooser
    simpa [reading] using hread

/-! ### Every chain has a grouping -/

/-- The grouping with one more operand at its right end. It becomes the right operand of the signs
that bind less tightly than the new one. -/
def push (g : Grouping) (sign : Token) (operand : Grouping) : Grouping :=
  match g with
  | atom t => operation sign (atom t) operand
  | brackets left inner right => operation sign (brackets left inner right) operand
  | operation other left right =>
    if Precedence.of other.kind < Precedence.of sign.kind then
      operation other left (right.push sign operand)
    else operation sign (operation other left right) operand

section Push

variable {g operand : Grouping} {sign : Token}

theorem reading_push : (g.push sign operand).reading = g.reading ++ sign :: operand.reading := by
  induction g with
  | atom | brackets => rfl
  | operation other left right _ ih =>
    rw [push]
    split
    · simp [reading, ih]
    · rfl

theorem IsProper.push (hg : g.IsProper) (hsign : sign.kind.isInfix = true)
    (ho : operand.IsProper) : (g.push sign operand).IsProper := by
  induction g with
  | atom | brackets => exact ⟨hsign, hg, ho⟩
  | operation other left right _ ih =>
    rw [Grouping.push]
    split
    · exact ⟨hg.1, hg.2.1, ih hg.2.2⟩
    · exact ⟨hsign, hg, ho⟩

theorem mem_signs_push (ho : operand.signs = []) {k : Kind}
    (hk : k ∈ (g.push sign operand).signs) : k ∈ g.signs ∨ k = sign.kind := by
  induction g with
  | atom | brackets => simpa [push, signs, ho] using hk
  | operation other left right _ ih =>
    rw [push] at hk
    split at hk
    · simp only [signs, List.mem_append, List.mem_cons] at hk ⊢
      rcases hk with hk | hk | hk
      · exact .inl (.inl hk)
      · exact .inl (.inr (.inl hk))
      · rcases ih hk with hk | hk
        · exact .inl (.inr (.inr hk))
        · exact .inr hk
    · simpa [signs, ho, or_assoc] using hk

theorem Respects.push (hg : g.Respects) (ho : operand.Respects) (hs : operand.signs = []) :
    (g.push sign operand).Respects := by
  have hempty : ∀ k ∈ operand.signs,
      (Precedence.of sign.kind).rank < (Precedence.of k).rank := by simp [hs]
  induction g with
  | atom | brackets => exact ⟨by simp [signs], hempty, hg, ho⟩
  | operation other left right _ ih =>
    obtain ⟨hlooser, htighter, hleft, hright⟩ := hg
    rw [Grouping.push]
    split
    · next hlt =>
      refine ⟨hlooser, fun k hk ↦ ?_, hleft, ih hright⟩
      rcases mem_signs_push hs hk with hk | rfl
      · exact htighter k hk
      · exact hlt
    · next hge =>
      have hle : (Precedence.of sign.kind).rank ≤ (Precedence.of other.kind).rank :=
        Nat.not_lt.mp hge
      refine ⟨fun k hk ↦ ?_, hempty, ⟨hlooser, htighter, hleft, hright⟩, ho⟩
      -- No sign of the old grouping binds less tightly than the one at its top.
      simp only [signs, List.mem_append, List.mem_cons] at hk
      rcases hk with hk | rfl | hk
      · exact Nat.le_trans hle (hlooser k hk)
      · exact hle
      · exact Nat.le_trans hle (Nat.le_of_lt (htighter k hk))

end Push

/-- Operands are added one after the other. -/
theorem Resolves.exists_chain {g : Grouping} {ts : List Token} (hg : g.Resolves ts)
    {rest : List (Token × List Token)} (hsigns : ∀ next ∈ rest, next.1.kind.isInfix = true)
    (hrest : ∀ next ∈ rest, ∃ operand : Grouping, operand.Resolves next.2 ∧ operand.signs = []) :
    ∃ g : Grouping, g.Resolves (chain ts rest) := by
  induction rest generalizing g ts with
  | nil => exact ⟨g, by simpa [chain] using hg⟩
  | cons next rest ih =>
    obtain ⟨operand, ho, hs⟩ := hrest next (by simp)
    have hpush : (g.push next.1 operand).Resolves (ts ++ next.1 :: next.2) := by
      refine ⟨hg.proper.push (hsigns next (by simp)) ho.proper, ?_, hg.respects.push ho.respects hs⟩
      rw [reading_push, hg.reading_eq, ho.reading_eq]
    obtain ⟨g', hg'⟩ := ih hpush (fun x hx ↦ hsigns x (by simp [hx]))
      fun x hx ↦ hrest x (by simp [hx])
    exact ⟨g', by simpa [chain] using hg'⟩

end Grouping

theorem IsOperand.exists_resolves {ts : List Token} (h : IsOperand ts) :
    ∃ g : Grouping, g.Resolves ts ∧ g.signs = [] := by
  induction h with
  | @atom t ht => exact ⟨.atom t, ⟨ht, rfl, trivial⟩, rfl⟩
  | @brackets left right first rest hleft _ hsigns _ hright ihfirst ihrest =>
    obtain ⟨g, hg, -⟩ := ihfirst
    obtain ⟨inner, hinner⟩ := hg.exists_chain hsigns ihrest
    refine ⟨.brackets left inner right, ⟨⟨hleft, hinner.proper, hright⟩, ?_, hinner.respects⟩, rfl⟩
    rw [Grouping.reading, hinner.reading_eq]

/-! ### And no other -/

theorem Token.IsAtom.isInfix_eq_false {t : Token} (h : t.IsAtom) : t.kind.isInfix = false := by
  rcases h with h | h | h | h | ⟨h, -⟩ <;> (rw [h]; rfl)

theorem Token.IsAtom.bracketing_eq_zero {t : Token} (h : t.IsAtom) : t.bracketing = 0 := by
  rcases h with h | h | h | h | ⟨h, -⟩ <;> simp [Token.bracketing, h]

/-- The signs among the tokens that are not in brackets, if `count` brackets are open before
them. -/
def signsOutside (count : Int) : List Token → List Kind
  | [] => []
  | t :: ts =>
    let rest := signsOutside (count + t.bracketing) ts
    if count = 0 ∧ t.kind.isInfix then t.kind :: rest else rest

theorem signsOutside_append (count : Int) (ts us : List Token) :
    signsOutside count (ts ++ us) =
      signsOutside count ts ++ signsOutside (count + Token.openBrackets ts) us := by
  induction ts generalizing count with
  | nil => simp [signsOutside, Token.openBrackets]
  | cons t ts ih =>
    rw [List.cons_append, signsOutside, signsOutside, ih, Token.openBrackets_cons, Int.add_assoc]
    split
    · rfl
    · rfl

theorem signsOutside_of_isInfix {t : Token} (h : t.kind.isInfix = true) (ts : List Token) :
    signsOutside 0 (t :: ts) = t.kind :: signsOutside 0 ts := by
  simp [signsOutside, h, Kind.bracketing_of_isInfix h]

namespace Grouping

variable {g : Grouping}

theorem reading_ne_nil (g : Grouping) : g.reading ≠ [] := by
  cases g <;> simp [reading]

theorem openBrackets_reading (h : g.IsProper) : Token.openBrackets g.reading = 0 := by
  induction g with
  | atom t => simpa [reading, Token.openBrackets] using Token.IsAtom.bracketing_eq_zero h
  | brackets left inner right ih =>
    obtain ⟨hleft, hinner, hright⟩ := h
    have hl : left.bracketing = 1 := by simp [Token.bracketing, hleft]
    have hr : Token.openBrackets [right] = -1 := by
      simp [Token.openBrackets, Token.bracketing, hright]
    rw [reading, Token.openBrackets_append, Token.openBrackets_cons, ih hinner, hl, hr]
    rfl
  | operation sign left right ihl ihr =>
    obtain ⟨hsign, hleft, hright⟩ := h
    rw [reading, Token.openBrackets_append, Token.openBrackets_cons, ihl hleft, ihr hright,
      Kind.bracketing_of_isInfix hsign]
    rfl

/-- The signs of a grouping can be found without it, by counting brackets. -/
theorem signsOutside_reading (h : g.IsProper) {count : Int} (hc : 0 ≤ count) :
    signsOutside count g.reading = if count = 0 then g.signs else [] := by
  induction g generalizing count with
  | atom t => simp [reading, signsOutside, signs, Token.IsAtom.isInfix_eq_false h]
  | brackets left inner right ih =>
    obtain ⟨hleft, hinner, hright⟩ := h
    have hl : left.bracketing = 1 := by simp [Token.bracketing, hleft]
    have hinfix : left.kind.isInfix = false ∧ right.kind.isInfix = false := by
      rw [hleft, hright]
      exact ⟨rfl, rfl⟩
    have hopen : ¬ count + 1 = 0 := by omega
    have hin : signsOutside (count + 1) inner.reading = [] := by
      rw [ih hinner (by omega), if_neg hopen]
    simp [reading, signsOutside, signsOutside_append, signs, hinfix, hl, hin]
  | operation sign left right ihl ihr =>
    obtain ⟨hsign, hleft, hright⟩ := h
    rw [reading, signsOutside_append, openBrackets_reading hleft, Int.add_zero, ihl hleft hc,
      signsOutside, Kind.bracketing_of_isInfix hsign, Int.add_zero, ihr hright hc, hsign]
    split <;> simp_all [signs]

theorem signs_eq (h : g.IsProper) : g.signs = signsOutside 0 g.reading := by
  rw [signsOutside_reading h (Int.le_refl 0), if_pos rfl]

section Operations

variable {sign sign' : Token} {left right left' right' : Grouping}
  (h : (operation sign left right).IsProper) (h' : (operation sign' left' right').IsProper)
  (hr : (operation sign left right).Respects) (hr' : (operation sign' left' right').Respects)

include h h' hr hr'

/-- The top of a grouping is not on the left in another one whose top is on the right in the
first. -/
theorem not_shifted {between : List Token} (hleft : left'.reading = left.reading ++ sign :: between)
    (hright : right.reading = between ++ sign' :: right'.reading) : False := by
  have hopen := openBrackets_reading h.2.1
  have hbetween : Token.openBrackets between = 0 := by
    have hcount := openBrackets_reading h'.2.1
    rw [hleft, Token.openBrackets_append, Token.openBrackets_cons, hopen,
      Kind.bracketing_of_isInfix h.1] at hcount
    omega
  have hmem : sign.kind ∈ left'.signs := by
    rw [signs_eq h'.2.1, hleft, signsOutside_append, hopen, Int.add_zero,
      signsOutside_of_isInfix h.1]
    simp
  have hmem' : sign'.kind ∈ right.signs := by
    rw [signs_eq h.2.2, hright, signsOutside_append, hbetween, Int.add_zero,
      signsOutside_of_isInfix h'.1]
    simp
  exact Nat.lt_irrefl _ (Nat.lt_of_lt_of_le (hr.2.1 _ hmem') (hr'.1 _ hmem))

/-- Two groupings of the same tokens have the same sign at the top. -/
theorem operands_eq
    (heq : (operation sign left right).reading = (operation sign' left' right').reading) :
    left.reading = left'.reading ∧ sign = sign' ∧ right.reading = right'.reading := by
  rcases List.append_eq_append_iff.mp heq with ⟨more, hl, hmore⟩ | ⟨more, hl, hmore⟩
  · rcases List.cons_eq_append_iff.mp hmore with ⟨rfl, hsame⟩ | ⟨between, rfl, hright⟩
    · simp_all
    · exact (not_shifted h h' hr hr' hl hright).elim
  · rcases List.cons_eq_append_iff.mp hmore with ⟨rfl, hsame⟩ | ⟨between, rfl, hright⟩
    · simp_all
    · exact (not_shifted h' h hr' hr hl hright).elim

end Operations

/-- A grouping that respects the levels is determined by its tokens. -/
theorem eq_of_reading_eq {g' : Grouping} (h : g.IsProper) (h' : g'.IsProper) (hr : g.Respects)
    (hr' : g'.Respects) (heq : g.reading = g'.reading) : g = g' := by
  induction g generalizing g' with
  | atom t =>
    have hsigns : [] = g'.signs := by rw [signs_eq h', ← heq, ← signs_eq h, signs]
    cases g' with
    | atom => simpa [reading] using heq
    | brackets => simp [reading] at heq
    | operation => simp [signs] at hsigns
  | brackets left inner right ih =>
    have hsigns : [] = g'.signs := by rw [signs_eq h', ← heq, ← signs_eq h, signs]
    cases g' with
    | atom => simp [reading] at heq
    | brackets left' inner' right' =>
      simp only [reading, List.cons_append, List.cons.injEq] at heq
      obtain ⟨rfl, heq⟩ := heq
      obtain ⟨hinner, hright⟩ := List.append_inj' heq rfl
      obtain rfl := List.singleton_inj.mp hright
      rw [ih h.2.1 h'.2.1 hr hr' hinner]
    | operation => simp [signs] at hsigns
  | operation sign left right ihl ihr =>
    have hsigns : left.signs ++ sign.kind :: right.signs = g'.signs := by
      rw [signs_eq h', ← heq, ← signs_eq h, signs]
    cases g' with
    | atom | brackets => simp [signs] at hsigns
    | operation sign' left' right' =>
      obtain ⟨hleft, rfl, hright⟩ := operands_eq h h' hr hr' heq
      rw [ihl h.2.1 h'.2.1 hr.2.2.1 hr'.2.2.1 hleft, ihr h.2.2 h'.2.2 hr.2.2.2 hr'.2.2.2 hright]

theorem Resolves.unique {g' : Grouping} {ts : List Token} (h : g.Resolves ts)
    (h' : g'.Resolves ts) : g = g' :=
  eq_of_reading_eq h.proper h'.proper h.respects h'.respects
    (h.reading_eq.trans h'.reading_eq.symm)

end Grouping

/-! ### Whole texts -/

/-- The tokens of a whole text that are one chain, perhaps with a semicolon, are one statement. -/
theorem Grouping.Resolves.readsProgram {g : Grouping} {t : Token} {ts tail : List Token}
    (hg : g.Resolves (t :: ts)) (hn : ∀ u ∈ t :: ts, u.IsNumeral)
    (htail : tail = [] ∨ ∃ u, u.kind = .semicolon ∧ tail = [u]) :
    ReadsProgram (t :: ts ++ tail) [.expr t.position g.expr] := by
  have hlowest : Precedence.of (nextKind tail) = .lowest := by
    rcases htail with rfl | ⟨u, hu, rfl⟩
    · rfl
    · rw [nextKind_cons, hu]
      rfl
  have hread : Reads (.expression .lowest) (g.reading ++ tail) g.expr tail := by
    refine Grouping.reads hg.proper hg.respects (hg.reading_eq ▸ hn) (fun k hk ↦ ?_)
      (fun k _ ↦ ?_) (.stop ?_)
    · exact Kind.lowest_lt_of_isInfix (isInfix_of_mem_signs hg.proper hk)
    · rw [hlowest]
      exact Nat.zero_le _
    · rw [hlowest]
      exact Nat.not_lt_zero _
  rw [hg.reading_eq] at hread
  rcases htail with rfl | ⟨u, hu, rfl⟩
  · exact .cons (.openStatement (.expr hread) rfl (by simp)) .nil
  · exact .cons (.closedStatement (.expr hread) rfl hu) .nil

/-- Reading a chain gives the tree of the one grouping that respects the levels of binding, and
nothing else. -/
theorem ofSource_chain {source : String} {first tail : List Token}
    {rest : List (Token × List Token)} (hfirst : IsOperand first)
    (hsigns : ∀ next ∈ rest, next.1.kind.isInfix = true) (hrest : ∀ next ∈ rest, IsOperand next.2)
    (htail : tail = [] ∨ ∃ t, t.kind = .semicolon ∧ tail = [t])
    (h : Token.ofSource source = chain first rest ++ tail) :
    ∃ g : Grouping, g.Resolves (chain first rest) ∧
      (∀ other : Grouping, other.Resolves (chain first rest) → other = g) ∧
      Parsed.ofSource source = ⟨[.expr (Cursor.ofSource source).next.position g.expr], []⟩ := by
  obtain ⟨operand, hoperand, -⟩ := hfirst.exists_resolves
  obtain ⟨g, hg⟩ := hoperand.exists_chain hsigns fun next hnext ↦ (hrest next hnext).exists_resolves
  refine ⟨g, hg, fun other hother ↦ hother.unique hg, ?_⟩
  have hn : ∀ t ∈ chain first rest, t.IsNumeral := fun t ht hk ↦
    Token.readInt?_literal (h ▸ List.mem_append_left _ ht) hk
  cases hts : chain first rest with
  | nil => exact absurd (hg.reading_eq.trans hts) g.reading_ne_nil
  | cons t ts =>
    rw [hts] at hg hn h
    rw [Parsed.ofSource_eq_iff, Cursor.next, Cursor.ofSource, h]
    exact hg.readsProgram hn htail

/-- A sum of a number and a range in brackets. -/
theorem ofSource_chain_brackets :
    let first : List Token := [⟨.int, "1", ⟨0, 1, 1⟩⟩]
    let range : List Token := [⟨.lparen, "(", ⟨4, 1, 5⟩⟩, ⟨.ident, "a", ⟨5, 1, 6⟩⟩,
      ⟨.range, "..", ⟨7, 1, 8⟩⟩, ⟨.int, "2", ⟨10, 1, 11⟩⟩, ⟨.rparen, ")", ⟨11, 1, 12⟩⟩]
    let rest : List (Token × List Token) := [(⟨.plus, "+", ⟨2, 1, 3⟩⟩, range)]
    Token.ofSource "1 + (a .. 2);" = chain first rest ++ [⟨.semicolon, ";", ⟨12, 1, 13⟩⟩] ∧
      ∃ g : Grouping, g.Resolves (chain first rest) ∧
        (∀ other : Grouping, other.Resolves (chain first rest) → other = g) ∧
        Parsed.ofSource "1 + (a .. 2);" =
          ⟨[.expr (Cursor.ofSource "1 + (a .. 2);").next.position g.expr], []⟩ := by
  intro first range rest
  have htokens : Token.ofSource "1 + (a .. 2);" =
      chain first rest ++ [⟨.semicolon, ";", ⟨12, 1, 13⟩⟩] := by decide +kernel
  have hrange : IsOperand range := by
    refine @IsOperand.brackets ⟨.lparen, "(", ⟨4, 1, 5⟩⟩ ⟨.rparen, ")", ⟨11, 1, 12⟩⟩
      [⟨.ident, "a", ⟨5, 1, 6⟩⟩] [(⟨.range, "..", ⟨7, 1, 8⟩⟩, [⟨.int, "2", ⟨10, 1, 11⟩⟩])]
      rfl (.atom (by decide)) (by decide) ?_ rfl
    simpa using IsOperand.atom (by decide)
  exact ⟨htokens, ofSource_chain (.atom (by decide)) (by decide) (by simpa [rest] using hrange)
    (.inr ⟨_, rfl, rfl⟩) htokens⟩

/-- An integer above the largest word is no operand: it is reported, and there is no statement. -/
theorem ofSource_large_integer :
    (Token.ofSource "9223372036854775808").map Token.kind = [.int] ∧
      (Parsed.ofSource "9223372036854775808").program.length = 0 ∧
      (Parsed.ofSource "9223372036854775808").errors =
        [.invalidInteger "9223372036854775808" ⟨0, 1, 1⟩] := by
  decide +kernel

end Treewalk
