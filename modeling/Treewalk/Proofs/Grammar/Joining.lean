import Treewalk.Proofs.Grammar.Acceptance
import Treewalk.Proofs.Grammar.Places
import Treewalk.Proofs.Grammar.Progress

/-!
# Programs joined by a line feed

A phrase that ends before the end of the text is the same phrase when more tokens follow
(`Reads.append`). At the end of the text this may fail, since an expression can go on there. But a
semicolon or a comment is never the end of an expression (`Reads.closes`), so a program that ends in
one is the first part of every text that starts with it. Joined by a line feed, the second text is
then read as if it stood alone, only at places further on (`Parsed.ofSource_append_newline`).
-/

set_option autoImplicit false
set_option relaxedAutoImplicit false

namespace Treewalk

/-! ### Phrases before more tokens -/

theorem nextKind_append {ts : List Token} (h : ts ≠ []) (us : List Token) :
    nextKind (ts ++ us) = nextKind ts := by
  cases ts with
  | nil => exact absurd rfl h
  | cons t ts => rfl

theorem Reads.ne_nil {p : Phrase} {ts ts' : List Token} {r : p.Result} (h : Reads p ts r ts')
    (hne : ts' ≠ []) : ts ≠ [] := by
  rintro rfl
  exact hne (List.length_eq_zero_iff.mp (Nat.le_zero.mp h.length_le))

/-- A phrase that ends before the end of the text is the same when more tokens follow. -/
theorem Reads.append {p : Phrase} {ts ts' : List Token} {r : p.Result} (h : Reads p ts r ts')
    (us : List Token) (hne : ts' ≠ []) : Reads p (ts ++ us) r (ts' ++ us) := by
  induction h with
  | noParameter ht => exact .noParameter ht
  | parameter ht _ ih => exact .parameter ht (ih hne)
  | lastParameter ht => exact .lastParameter ht
  | nextParameter ht hu _ ih => exact .nextParameter ht hu (ih hne)
  | name ht => exact .name ht
  | int ht hv => exact .int ht hv
  | float ht hx => exact .float ht hx
  | str ht => exact .str ht
  | bool ht => exact .bool ht
  | unary ht _ ih => exact .unary ht (ih hne)
  | stepBefore ht _ ih => exact .stepBefore ht (ih hne)
  | group ht _ hu ih => exact .group ht (ih (by simp)) hu
  | ifOperand ht _ ih => exact .ifOperand ht (ih hne)
  | function ht hu _ hb ihn ihb => exact .function ht hu (ihn (hb.ne_nil hne)) (ihb hne)
  | whileLoop ht _ hb ihc ihb => exact .whileLoop ht (ihc (hb.ne_nil hne)) (ihb hne)
  | forOperand ht _ ih => exact .forOperand ht (ih hne)
  | array ht _ ih => exact .array ht (ih hne)
  | hash ht _ ih => exact .hash ht (ih hne)
  | expression _ he ihl ihe => exact .expression (ihl (he.ne_nil hne)) (ihe hne)
  | stop hs => exact .stop (by rwa [nextKind_append hne])
  | goOn ht _ hr ihe ihr => exact .goOn ht (ihe (hr.ne_nil hne)) (ihr hne)
  | call ht _ ih => exact .call ht (ih hne)
  | element ht _ ih => exact .element ht (ih hne)
  | stepAfter ht => exact .stepAfter ht
  | range ht _ ih => exact .range ht (ih hne)
  | binary ht _ ih => exact .binary ht (ih hne)
  | sliceFromStart ht _ ih => exact .sliceFromStart ht (ih hne)
  | slice _ ht _ ihf ihs => exact .slice (ihf (by simp)) ht (ihs hne)
  | index _ ht ih => exact .index (ih (by simp)) ht
  | noSliceEnd ht => exact .noSliceEnd ht
  | sliceEnd _ ht ih => exact .sliceEnd (ih (by simp)) ht
  | onlyIf _ hb he ihc ihb =>
    exact .onlyIf (ihc (hb.ne_nil hne)) (ihb hne) (by rwa [nextKind_append hne])
  | elseIf _ hb ht hu _ ihc ihb ihe =>
    exact .elseIf (ihc (hb.ne_nil (by simp))) (ihb (by simp)) ht hu (ihe hne)
  | orElse _ hb ht _ ihc ihb ihd =>
    exact .orElse (ihc (hb.ne_nil (by simp))) (ihb (by simp)) ht (ihd hne)
  | forLoop ht _ hu hn _ hv _ hw _ ihs ihc iha ihb =>
    exact .forLoop ht (ihs (by simp)) hu hn (ihc (by simp)) hv (iha (by simp)) hw (ihb hne)
  | noExpression ht => exact .noExpression ht
  | firstExpression _ hs ihe ihs => exact .firstExpression (ihe (hs.ne_nil hne)) (ihs hne)
  | lastExpression ht => exact .lastExpression ht
  | nextExpression ht _ hs ihe ihs => exact .nextExpression ht (ihe (hs.ne_nil hne)) (ihs hne)
  | noPair ht => exact .noPair ht
  | lastPair _ ht _ hu ihk ihv => exact .lastPair (ihk (by simp)) ht (ihv (by simp)) hu
  | nextPair _ ht _ hu _ ihk ihv ihp =>
    exact .nextPair (ihk (by simp)) ht (ihv (by simp)) hu (ihp hne)
  | block ht _ ih => exact .block ht (ih hne)
  | noStatement ht => exact .noStatement ht
  | nextStatement _ hr ihs ihr => exact .nextStatement (ihs (hr.ne_nil hne)) (ihr hne)
  | commentStatement _ hc ih => exact .commentStatement (ih hne) hc
  | closedStatement _ hc ht ih => exact .closedStatement (ih (by simp)) hc ht
  | openStatement _ hc hn ih => exact .openStatement (ih hne) hc (by rwa [nextKind_append hne])
  | bind ht hu hv _ ih => exact .bind ht hu hv (ih hne)
  | store ht hu hv _ hw hx _ ihk ihe => exact .store ht hu hv (ihk (by simp)) hw hx (ihe hne)
  | ret ht _ ih => exact .ret ht (ih hne)
  | comment ht => exact .comment ht
  | expr _ ih => exact .expr (ih hne)

/-! ### The last token of a phrase -/

theorem Phrase.advances_read (p : Phrase) (depth : Nat) : Advances (p.read depth) := by
  have h := Parser.advancesAt depth
  cases p with
  | parameters => exact h.parameters
  | moreParameters => exact advances_relation.moreParameters (Nat.le_refl depth) (.inl rfl)
  | expression level => exact h.expression level
  | operand => exact h.operand
  | operation level left => exact h.operation level left
  | extension t left => exact h.extension t left
  | subscript position target => exact h.subscript position target
  | sliceEnd => exact h.sliceEnd
  | conditional position => exact h.conditional position
  | forLoop position => exact h.forLoop position
  | expressions closing => exact h.expressions closing
  | moreExpressions closing => exact h.moreExpressions closing
  | pairs => exact h.pairs
  | block => exact h.block
  | statements => exact h.statements
  | statement => exact h.statement
  | bareStatement => exact h.bareStatement

/-- What follows a phrase is an end of the tokens. -/
theorem Reads.suffix {p : Phrase} {ts ts' : List Token} {r : p.Result} (h : Reads p ts r ts')
    (hp : p.Proper) : ts' <:+ ts := by
  have hread := Phrase.accepts_read (p.depthFor ts) p hp default h (Nat.le_refl _)
  have hrest := p.advances_read (p.depthFor ts) ⟨ts, default⟩
  unfold after at hrest
  rwa [hread] at hrest

/-- The tokens from `ts` up to `ts'` end in one that is neither a semicolon nor a comment. -/
def Closes (ts ts' : List Token) : Prop :=
  ∃ t, t :: ts' <:+ ts ∧ t.kind ≠ .semicolon ∧ t.kind ≠ .comment

/-- How a phrase ends. A statement may end in a semicolon or a comment, and what goes on with an
expression may be empty. -/
def Phrase.Closes : (p : Phrase) → p.Result → List Token → List Token → Prop
  | .statement, _, _, _ => True
  | .bareStatement, s, ts, ts' => s.isComment = false → Treewalk.Closes ts ts'
  | .operation _ _, _, ts, ts' => ts = ts' ∨ Treewalk.Closes ts ts'
  | .extension _ _, _, ts, ts' => ts = ts' ∨ Treewalk.Closes ts ts'
  | _, _, ts, ts' => Treewalk.Closes ts ts'

namespace Closes

variable {t : Token} {ts ts₁ ts' : List Token}

theorem token {k : Kind} (ht : t.kind = k) (hs : t :: ts' <:+ ts)
    (hk : k ≠ .semicolon ∧ k ≠ .comment) : Closes ts ts' :=
  ⟨t, hs, ht ▸ hk.1, ht ▸ hk.2⟩

theorem after (h : Closes ts₁ ts') (hs : ts₁ <:+ ts) : Closes ts ts' :=
  let ⟨t, ht, hk⟩ := h
  ⟨t, ht.trans hs, hk⟩

theorem cons (h : Closes ts ts') : Closes (t :: ts) ts' :=
  h.after (List.suffix_cons t ts)

end Closes

/-- A token that goes on with an expression is no semicolon and no comment. -/
theorem Precedence.ne_of_lt {level : Precedence} {k : Kind} (h : level < Precedence.of k) :
    k ≠ .semicolon ∧ k ≠ .comment := by
  constructor <;> rintro rfl <;> exact absurd h (Nat.not_lt_zero _)

/-- A phrase other than a statement does not end in a semicolon or a comment. -/
theorem Reads.closes {p : Phrase} {ts ts' : List Token} {r : p.Result} (h : Reads p ts r ts')
    (hp : p.Proper) : p.Closes r ts ts' := by
  induction h with
  | noParameter ht | lastParameter ht | noSliceEnd ht | noPair ht | noStatement ht | name ht
  | str ht => exact .token ht (List.suffix_refl _) (by decide)
  | int ht | float ht => exact .token ht (List.suffix_refl _) (by decide)
  | @bool t ts b ht => cases b <;> exact .token ht (List.suffix_refl _) (by decide)
  | noExpression ht | lastExpression ht =>
    exact .token ht (List.suffix_refl _) (by rcases hp with rfl | rfl <;> decide)
  | parameter _ _ ih | unary _ _ ih | stepBefore _ _ ih | ifOperand _ _ ih | forOperand _ _ ih
  | hash _ _ ih | sliceFromStart _ _ ih | block _ _ ih => exact (ih trivial).cons
  | array _ _ ih => exact (ih (.inr rfl)).cons
  | nextParameter _ _ _ ih => exact (ih trivial).cons.cons
  | group _ he hu => exact (Closes.token hu (he.suffix trivial) (by decide)).cons
  | function _ _ hn _ _ ihb => exact ((ihb trivial).after (hn.suffix trivial)).cons.cons
  | whileLoop _ hc _ _ ihb => exact ((ihb trivial).after (hc.suffix trivial)).cons
  | expression hl _ ihl ihe =>
    rcases ihe trivial with rfl | he
    · exact ihl trivial
    · exact he.after (hl.suffix trivial)
  | stop | stepAfter => exact .inl rfl
  | @goOn level left t ts e ts₁ r ts' ht he hr ihe ihr =>
    have hproper : (Phrase.extension t left).Proper := Nat.lt_of_le_of_lt (Nat.zero_le _) ht
    rcases ihr trivial with rfl | hclose
    · rcases ihe hproper with rfl | hclose
      · exact .inr (.token rfl (List.suffix_refl _) (Precedence.ne_of_lt ht))
      · exact .inr hclose.cons
    · exact .inr (hclose.after ((he.suffix hproper).trans (List.suffix_cons t ts)))
  | call _ _ ih => exact .inr (ih (.inl rfl))
  | element _ _ ih | range _ _ ih | binary _ _ ih => exact .inr (ih trivial)
  | slice hf _ _ _ ihs => exact (ihs trivial).cons.after (hf.suffix trivial)
  | index hf ht => exact .token ht (hf.suffix trivial) (by decide)
  | sliceEnd he ht => exact .token ht (he.suffix trivial) (by decide)
  | onlyIf hc _ _ _ ihb => exact (ihb trivial).after (hc.suffix trivial)
  | elseIf hc hb _ _ _ _ _ ihe =>
    exact (ihe trivial).cons.cons.after ((hb.suffix trivial).trans (hc.suffix trivial))
  | orElse hc hb _ _ _ _ ihd =>
    exact (ihd trivial).cons.after ((hb.suffix trivial).trans (hc.suffix trivial))
  | forLoop _ hs _ _ hc _ ha _ _ _ _ _ ihb =>
    have hadvance := (ihb trivial).cons.after (ha.suffix trivial)
    have hcondition := hadvance.cons.after (hc.suffix trivial)
    exact (hcondition.cons.after (hs.suffix trivial)).cons
  | firstExpression he _ _ ihs => exact (ihs hp).after (he.suffix trivial)
  | nextExpression _ he _ _ ihs => exact ((ihs hp).after (he.suffix trivial)).cons
  | lastPair hk _ hv hu =>
    exact ((Closes.token hu (hv.suffix trivial) (by decide)).cons).after (hk.suffix trivial)
  | nextPair hk _ hv _ _ _ _ ihp =>
    exact ((ihp trivial).cons.after (hv.suffix trivial)).cons.after (hk.suffix trivial)
  | nextStatement hs _ _ ihr => exact (ihr trivial).after (hs.suffix trivial)
  | commentStatement | closedStatement | openStatement => trivial
  | bind _ _ _ _ ih => exact fun _ ↦ (ih trivial).cons.cons.cons
  | store _ _ _ hk _ _ _ _ ihe =>
    exact fun _ ↦ ((ihe trivial).cons.cons.after (hk.suffix trivial)).cons.cons.cons
  | ret _ _ ih => exact fun _ ↦ (ih trivial).cons
  | comment => exact fun h ↦ Bool.noConfusion h
  | expr _ ih => exact fun _ ↦ ih trivial

/-! ### Programs before more tokens -/

/-- The last token is a semicolon or a comment, if there is one. -/
def EndsClosed (ts : List Token) : Prop :=
  ∀ t ∈ ts.getLast?, t.kind = .semicolon ∨ t.kind = .comment

theorem EndsClosed.of_suffix {ts ts' : List Token} (h : EndsClosed ts) (hs : ts' <:+ ts) :
    EndsClosed ts' := by
  intro t ht
  obtain ⟨before, rfl⟩ := hs
  exact h t (by rw [List.getLast?_append, ht]; rfl)

theorem Closes.not_endsClosed {ts : List Token} (h : Closes ts []) : ¬ EndsClosed ts := by
  obtain ⟨t, ⟨before, rfl⟩, hsemicolon, hcomment⟩ := h
  intro hends
  rcases hends t (by simp) with ht | ht
  · exact hsemicolon ht
  · exact hcomment ht

/-- A statement is the same when more tokens follow, unless the text ends with it and not in a
semicolon or a comment. -/
theorem Reads.statement_append {ts ts' : List Token} {s : Stmt} (h : Reads .statement ts s ts')
    (hends : EndsClosed ts) (us : List Token) : Reads .statement (ts ++ us) s (ts' ++ us) := by
  by_cases hne : ts' = []
  · subst hne
    cases h with
    | commentStatement hs hc =>
      cases hs with
      | comment ht => exact .commentStatement (.comment ht) rfl
      | _ => cases hc
    | closedStatement hs hc ht => exact .closedStatement (hs.append us (by simp)) hc ht
    | openStatement hs hc hn => exact absurd hends (hs.closes trivial hc).not_endsClosed
  · exact h.append us hne

/-- A program that ends in a semicolon or a comment is read first, whatever follows. -/
theorem ReadsProgram.ofCursor_append {ts : List Token} {program : Program}
    (h : ReadsProgram ts program) (hends : EndsClosed ts) (us : List Token) (f : Position)
    (count : Nat) (hc : ts.length + us.length ≤ count) :
    Parsed.ofCursor count ⟨ts ++ us, f⟩ =
      ⟨program ++ (Parsed.ofCursor us.length ⟨us, f⟩).program,
        (Parsed.ofCursor us.length ⟨us, f⟩).errors⟩ := by
  induction h generalizing count with
  | nil =>
    have hle : us.length ≤ count := by simpa using hc
    exact Parsed.ofCursor_eq_of_le hle (Nat.le_refl _)
  | @cons ts s ts' ss hs hr ih =>
    have hlt := hs.length_lt rfl
    have hread : Parser.statement (Parser.depthFor (ts ++ us).length) ⟨ts ++ us, f⟩ =
        .ok s ⟨ts' ++ us, f⟩ :=
      Phrase.accepts_read _ .statement trivial f (hs.statement_append hends us)
        (Phrase.depthFor_statement_le _)
    have hne : ts ≠ [] := by
      rintro rfl
      exact absurd hlt (Nat.not_lt_zero _)
    obtain ⟨count, rfl⟩ : ∃ n, count = n + 1 := ⟨count - 1, by omega⟩
    have hrest := ih (hends.of_suffix (hs.suffix trivial)) count (by omega)
    rw [List.length_append] at hread
    simp [Parsed.ofCursor, hne, hread, hrest]

/-- Reading two texts with a line feed between them, of which the first has no errors and ends in a
semicolon or a comment. -/
theorem Parsed.ofSource_append_newline {first : String}
    (h : (Parsed.ofSource first).errors = []) (hends : EndsClosed (Token.ofSource first))
    (second : String) :
    Parsed.ofSource (first ++ "\n" ++ second) =
      ⟨(Parsed.ofSource first).program ++
          ((Parsed.ofSource second).relocate (.behind first)).program,
        ((Parsed.ofSource second).relocate (.behind first)).errors⟩ := by
  have hstring : Scanner.endsInString first.toList = false := by
    refine Scanner.endsInString_eq_false (p := .start) fun t ht ↦ ?_
    rcases hends t ht with hk | hk <;> simp [hk]
  have hcursor : Cursor.ofSource (first ++ "\n" ++ second) =
      ⟨Token.ofSource first ++ ((Cursor.ofSource second).relocate (.behind first)).rest,
        ((Cursor.ofSource second).relocate (.behind first)).finish⟩ := by
    rw [Cursor.ofSource, Token.ofSource_append_newline hstring second,
      Position.ofEnd_append_newline]
    rfl
  have hsecond : Parsed.ofCursor ((Cursor.ofSource second).relocate (.behind first)).rest.length
      ((Cursor.ofSource second).relocate (.behind first)) =
        (Parsed.ofSource second).relocate (.behind first) := by
    rw [Parsed.ofCursor_relocate]
    simp [Parsed.ofSource, Cursor.relocate]
  have hread := (readsProgram_ofSource first h).ofCursor_append hends
    ((Cursor.ofSource second).relocate (.behind first)).rest
    ((Cursor.ofSource second).relocate (.behind first)).finish _ (Nat.le_refl _)
  rw [hsecond, ← List.length_append] at hread
  conv_lhs => rw [Parsed.ofSource, hcursor]
  exact hread

end Treewalk
