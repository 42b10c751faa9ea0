import Treewalk.Proofs.Grammar.Acceptance
import Treewalk.Session

/-!
# Brackets of readable texts

A closing bracket is due for every opening one, and the bracket that was opened last has to be
closed first. `Token.dueAfter?` follows the tokens of a text with the list of brackets that are due;
it gives up at a closing bracket that is not the next one due. The brackets of a text are properly
nested when it starts and ends with none due. This is so for every text that is read without errors,
so the count of open brackets, by which a session tells whether its input is complete, is zero there
(`dueAfter?_ofSource`).

The proof is one induction over the rules of the grammar. Many phrases start behind a bracket that
they close themselves, so `Phrase.due` says which brackets a phrase finds open and takes the closing
ones of.
-/

set_option autoImplicit false
set_option relaxedAutoImplicit false

namespace Treewalk

/-! ### Nesting -/

/-- The bracket that closes an opening one. -/
def Kind.closing? : Kind → Option Kind
  | lparen => some .rparen
  | lbrace => some .rbrace
  | lbracket => some .rbracket
  | _ => none

/-- Whether a token of this kind is a closing bracket. -/
def Kind.isClosing : Kind → Bool
  | rparen | rbrace | rbracket => true
  | _ => false

namespace Token

/-- The closing brackets that are due after a token, the next one first, given those that are due
before it. -/
def due? (t : Token) (due : List Kind) : Option (List Kind) :=
  match t.kind.closing? with
  | some k => some (k :: due)
  | none =>
    if t.kind.isClosing then
      match due with
      | [] => none
      | k :: due => if t.kind = k then some due else none
    else some due

/-- The closing brackets that are due after several tokens. -/
def dueAfter? : List Token → List Kind → Option (List Kind)
  | [], due => some due
  | t :: ts, due => (t.due? due).bind (dueAfter? ts)

variable {t : Token} {ts : List Token} {due due' : List Kind} {k : Kind}

/-- A token that is no closing bracket only adds the bracket that it opens. -/
theorem dueAfter?_cons (h : t.kind.isClosing = false) :
    dueAfter? (t :: ts) due = dueAfter? ts (t.kind.closing?.toList ++ due) := by
  rw [dueAfter?, due?.eq_def]
  cases t.kind.closing? <;> simp [h]

/-- An opening bracket makes its closing one the next that is due. -/
theorem dueAfter?_cons_open {c : Kind} (h : t.kind = k) (hk : k.closing? = some c) :
    dueAfter? (t :: ts) due = dueAfter? ts (c :: due) := by
  simp [dueAfter?, due?, h, hk]

/-- A token that is no bracket changes nothing. -/
theorem dueAfter?_cons_other (h : t.kind = k) (ho : k.closing? = none) (hk : k.isClosing = false) :
    dueAfter? (t :: ts) due = dueAfter? ts due := by
  simp [dueAfter?, due?, h, ho, hk]

/-- A closing bracket that is the next one due. -/
theorem dueAfter?_cons_due (h : t.kind = k) (hk : k.isClosing = true) :
    dueAfter? (t :: ts) (k :: due) = dueAfter? ts due := by
  have hc : k.closing? = none := by
    cases k <;> first | rfl | cases hk
  simp [dueAfter?, due?, h, hk, hc]

/-- Each token changes the number of brackets that are due by its count. -/
theorem bracketing_of_due? (h : t.due? due = some due') :
    t.bracketing + due.length = due'.length := by
  unfold due? at h
  unfold bracketing
  cases hk : t.kind <;> cases due <;> simp_all [Kind.closing?, Kind.isClosing] <;> grind

theorem openBrackets_of_dueAfter? (h : dueAfter? ts due = some due') :
    openBrackets ts + due.length = due'.length := by
  induction ts generalizing due with
  | nil =>
    obtain rfl := Option.some.inj h
    simp [openBrackets]
  | cons t ts ih =>
    obtain ⟨mid, ht, hts⟩ := Option.bind_eq_some_iff.mp h
    have h₁ := bracketing_of_due? ht
    have h₂ := ih hts
    simp only [openBrackets, List.foldr_cons] at h₂ ⊢
    omega

end Token

open Token

/-! ### Brackets of phrases -/

namespace Phrase

/-- The closing brackets that the phrase takes although their opening ones stand before it. -/
def due : Phrase → List Kind
  | parameters | moreParameters => [.rparen]
  | extension t _ => t.kind.closing?.toList
  | subscript _ _ | sliceEnd => [.rbracket]
  | expressions closing | moreExpressions closing => [closing]
  | pairs | statements => [.rbrace]
  | _ => []

/-- A list of expressions ends in a closing bracket. -/
theorem isClosing_of_proper {closing : Kind} (h : (expressions closing).Proper) :
    closing.isClosing = true := by
  rcases h with rfl | rfl <;> rfl

end Phrase

/-- A token that goes on with an expression closes no bracket. -/
theorem Precedence.isClosing_of_lt {level : Precedence} {k : Kind} (h : level < Precedence.of k) :
    k.isClosing = false := by
  cases k <;> first | rfl | exact absurd h (Nat.not_lt_zero _)

/-- An operator of one operand is no bracket. -/
theorem UnaryOperator.no_bracket {k : Kind} {operator : UnaryOperator}
    (h : UnaryOperator.ofKind? k = some operator) : k.closing? = none ∧ k.isClosing = false := by
  cases k <;> first | exact ⟨rfl, rfl⟩ | cases h

theorem StepDirection.no_bracket {k : Kind} {direction : StepDirection}
    (h : StepDirection.ofKind? k = some direction) : k.closing? = none ∧ k.isClosing = false := by
  cases k <;> first | exact ⟨rfl, rfl⟩ | cases h

theorem RangeBound.no_bracket {k : Kind} {bound : RangeBound}
    (h : RangeBound.ofKind? k = some bound) : k.closing? = none := by
  cases k <;> first | rfl | cases h

theorem BinaryOperator.no_bracket {k : Kind} {operator : BinaryOperator}
    (h : BinaryOperator.ofKind? k = some operator) : k.closing? = none := by
  cases k <;> first | rfl | cases h

/-- A phrase takes the brackets that are due for it and leaves the others due. -/
theorem Reads.dueAfter?_eq {p : Phrase} {ts ts' : List Token} {r : p.Result}
    (h : Reads p ts r ts') (hp : p.Proper) (due : List Kind) :
    dueAfter? ts (p.due ++ due) = dueAfter? ts' due := by
  induction h generalizing due with
  | noParameter ht | lastParameter ht | noSliceEnd ht | noPair ht | noStatement ht =>
    exact dueAfter?_cons_due ht rfl
  | noExpression ht | lastExpression ht =>
    exact dueAfter?_cons_due ht (Phrase.isClosing_of_proper hp)
  | parameter ht _ ih => exact (dueAfter?_cons_other ht rfl rfl).trans (ih trivial due)
  | nextParameter ht hu _ ih =>
    exact (dueAfter?_cons_other ht rfl rfl).trans
      ((dueAfter?_cons_other hu rfl rfl).trans (ih trivial due))
  | name ht | int ht | float ht | str ht | comment ht => exact dueAfter?_cons_other ht rfl rfl
  | @bool t ts b ht => cases b <;> exact dueAfter?_cons_other ht rfl rfl
  | unary ht _ ih =>
    obtain ⟨ho, hc⟩ := UnaryOperator.no_bracket ht
    exact (dueAfter?_cons_other rfl ho hc).trans (ih trivial due)
  | stepBefore ht _ ih =>
    obtain ⟨ho, hc⟩ := StepDirection.no_bracket ht
    exact (dueAfter?_cons_other rfl ho hc).trans (ih trivial due)
  | group ht _ hu ih =>
    exact (dueAfter?_cons_open ht rfl).trans
      ((ih trivial (.rparen :: due)).trans (dueAfter?_cons_due hu rfl))
  | ifOperand ht _ ih | forOperand ht _ ih =>
    exact (dueAfter?_cons_other ht rfl rfl).trans (ih trivial due)
  | function ht hu _ _ ihn ihb =>
    exact (dueAfter?_cons_other ht rfl rfl).trans ((dueAfter?_cons_open hu rfl).trans
      ((ihn trivial due).trans (ihb trivial due)))
  | whileLoop ht _ _ ihc ihb =>
    exact (dueAfter?_cons_other ht rfl rfl).trans ((ihc trivial due).trans (ihb trivial due))
  | array ht _ ih => exact (dueAfter?_cons_open ht rfl).trans (ih (.inr rfl) due)
  | hash ht _ ih => exact (dueAfter?_cons_open ht rfl).trans (ih trivial due)
  | expression _ _ ihl ihe => exact (ihl trivial due).trans (ihe trivial due)
  | stop => rfl
  | goOn ht _ _ ihe ihr =>
    have hs := Precedence.isClosing_of_lt ht
    exact (dueAfter?_cons hs).trans
      ((ihe (Nat.lt_of_le_of_lt (Nat.zero_le _) ht) due).trans (ihr trivial due))
  | call ht _ ih =>
    rw [Phrase.due, ht]
    exact ih (.inl rfl) due
  | element ht _ ih =>
    rw [Phrase.due, ht]
    exact ih trivial due
  | stepAfter ht => rw [Phrase.due, (StepDirection.no_bracket ht).1]; rfl
  | range ht _ ih =>
    rw [Phrase.due, RangeBound.no_bracket ht]
    exact ih trivial due
  | binary ht _ ih =>
    rw [Phrase.due, BinaryOperator.no_bracket ht]
    exact ih trivial due
  | sliceFromStart ht _ ih => exact (dueAfter?_cons_other ht rfl rfl).trans (ih trivial due)
  | slice _ ht _ ihf ihs =>
    exact (ihf trivial (.rbracket :: due)).trans
      ((dueAfter?_cons_other ht rfl rfl).trans (ihs trivial due))
  | index _ ht ih | sliceEnd _ ht ih =>
    exact (ih trivial (.rbracket :: due)).trans (dueAfter?_cons_due ht rfl)
  | onlyIf _ _ _ ihc ihb => exact (ihc trivial due).trans (ihb trivial due)
  | elseIf _ _ ht hu _ ihc ihb ihe =>
    exact (ihc trivial due).trans ((ihb trivial due).trans ((dueAfter?_cons_other ht rfl rfl).trans
      ((dueAfter?_cons_other hu rfl rfl).trans (ihe trivial due))))
  | orElse _ _ ht _ ihc ihb ihd =>
    exact (ihc trivial due).trans ((ihb trivial due).trans
      ((dueAfter?_cons_other ht rfl rfl).trans (ihd trivial due)))
  | forLoop ht _ hu _ _ hv _ hw _ ihs ihc iha ihb =>
    -- The clauses stand inside the brackets, the body behind them.
    have hclauses := (ihs trivial (.rparen :: due)).trans ((dueAfter?_cons_other hu rfl rfl).trans
      ((ihc trivial (.rparen :: due)).trans ((dueAfter?_cons_other hv rfl rfl).trans
        (iha trivial (.rparen :: due)))))
    exact (dueAfter?_cons_open ht rfl).trans
      (hclauses.trans ((dueAfter?_cons_due hw rfl).trans (ihb trivial due)))
  | @firstExpression closing _ _ _ _ _ _ _ ihe ihs =>
    exact (ihe trivial (closing :: due)).trans (ihs hp due)
  | @nextExpression closing _ _ _ _ _ _ ht _ _ ihe ihs =>
    exact (dueAfter?_cons_other ht rfl rfl).trans
      ((ihe trivial (closing :: due)).trans (ihs hp due))
  | lastPair _ ht _ hu ihk ihv =>
    exact (ihk trivial (.rbrace :: due)).trans ((dueAfter?_cons_other ht rfl rfl).trans
      ((ihv trivial (.rbrace :: due)).trans (dueAfter?_cons_due hu rfl)))
  | nextPair _ ht _ hu _ ihk ihv ihp =>
    exact (ihk trivial (.rbrace :: due)).trans ((dueAfter?_cons_other ht rfl rfl).trans
      ((ihv trivial (.rbrace :: due)).trans
        ((dueAfter?_cons_other hu rfl rfl).trans (ihp trivial due))))
  | block ht _ ih => exact (dueAfter?_cons_open ht rfl).trans (ih trivial due)
  | nextStatement _ _ ihs ihr => exact (ihs trivial (.rbrace :: due)).trans (ihr trivial due)
  | commentStatement _ _ ih | openStatement _ _ _ ih | expr _ ih => exact ih trivial due
  | closedStatement _ _ ht ih =>
    exact (ih trivial due).trans (dueAfter?_cons_other ht rfl rfl)
  | bind ht hu hv _ ih =>
    exact (dueAfter?_cons_other ht rfl rfl).trans ((dueAfter?_cons_other hu rfl rfl).trans
      ((dueAfter?_cons_other hv rfl rfl).trans (ih trivial due)))
  | store ht hu hv _ hw hx _ ihk ihe =>
    exact (dueAfter?_cons_other ht rfl rfl).trans ((dueAfter?_cons_other hu rfl rfl).trans
      ((dueAfter?_cons_open hv rfl).trans ((ihk trivial (.rbracket :: due)).trans
        ((dueAfter?_cons_due hw rfl).trans
          ((dueAfter?_cons_other hx rfl rfl).trans (ihe trivial due))))))
  | ret ht _ ih => exact (dueAfter?_cons_other ht rfl rfl).trans (ih trivial due)

theorem ReadsProgram.dueAfter?_eq {ts : List Token} {program : Program}
    (h : ReadsProgram ts program) : dueAfter? ts [] = some [] := by
  induction h with
  | nil => rfl
  | cons hs _ ih => exact (hs.dueAfter?_eq trivial []).trans ih

/-! ### Complete input -/

/-- A session asks for more input only while brackets are open. -/
theorem Session.openBrackets_pos_of_more {depth : Nat} {session session' : Session} {line : String}
    (h : session.feed depth line = some (.more, session')) :
    0 < openBrackets (session.joined line) := by
  refine Decidable.byContradiction fun hn ↦ ?_
  simp only [Session.feed, hn, ↓reduceIte] at h
  split at h
  · simp at h
  · split at h <;> simp at h

/-- When a text is read without errors, its brackets are properly nested, as many are closed as are
opened, and a session that waits for nothing does not ask for more input after it. -/
theorem dueAfter?_ofSource (source : String) (h : (Parsed.ofSource source).errors = []) :
    dueAfter? (Token.ofSource source) [] = some [] ∧ openBrackets source = 0 ∧
    ∀ (depth : Nat) (session session' : Session), session.waiting = "" →
      session.feed depth source ≠ some (.more, session') := by
  have hnested := (readsProgram_ofSource source h).dueAfter?_eq
  have hopen : openBrackets source = 0 := by
    simpa [openBrackets] using openBrackets_of_dueAfter? hnested
  refine ⟨hnested, hopen, fun depth session session' hw hf ↦ ?_⟩
  have hpos := Session.openBrackets_pos_of_more hf
  have hjoined : session.joined source = source := by simp [Session.joined, hw]
  rw [hjoined, hopen] at hpos
  exact Int.lt_irrefl 0 hpos

/-- A text with brackets of all three sorts inside each other, and with more of them in a string and
in a comment, which do not count. -/
theorem dueAfter?_ofSource_slice :
    let source := "let h[(1)] = fn(a) \x7b \x7b\"[(\": a[1:]\x7d \x7d; # ))"
    (Parsed.ofSource source).errors = [] ∧
    dueAfter? (Token.ofSource source) [] = some [] ∧ openBrackets source = 0 ∧
    (Session.start Store.empty ⟨0⟩).feed 9 source ≠ some (.more, .start Store.empty ⟨0⟩) := by
  intro source
  have h : (Parsed.ofSource source).errors = [] := by decide +kernel
  obtain ⟨hnested, hopen, hsession⟩ := dueAfter?_ofSource source h
  exact ⟨h, hnested, hopen, hsession 9 _ _ rfl⟩

end Treewalk
