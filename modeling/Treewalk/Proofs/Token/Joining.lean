import Mathlib.Data.List.TakeWhile
import Treewalk.Proofs.Token.Lexeme

/-!
# Texts joined by a line feed

No token but a string goes on behind a line feed. So the tokens of two texts with a line feed
between them are those of the first followed by those of the second, unless the first ends inside a
string (`tokensFrom_append_newline`). The tokens of a text depend on where it starts only in their
places (`tokensFrom_relocate`), so those of the second text are its tokens at other places.

A text ends inside a string exactly when its last token is one without a closing quote, so this can
be seen from the tokens (`Token.Unterminated`), and then lines are scanned one by one
(`Token.ofSource_lines`).
-/

set_option autoImplicit false
set_option relaxedAutoImplicit false

namespace Treewalk

namespace Scanner

/-! ### Pieces before a line feed -/

theorem takeWhile_newline {p : Char → Bool} (hp : p '\n' = false) (cs rest : List Char) :
    (cs ++ '\n' :: rest).takeWhile p = cs.takeWhile p ∧
      (cs ++ '\n' :: rest).dropWhile p = cs.dropWhile p ++ '\n' :: rest := by
  induction cs with
  | nil => simp [hp]
  | cons c cs ih =>
    by_cases hc : p c = true
    · simp [hc, ih]
    · simp [hc]

/-- A string that is closed ends at the same quote, whatever follows. -/
theorem takeWhile_append_of_mem {q : Char} {cs : List Char} (h : q ∈ cs) (rest : List Char) :
    (cs ++ rest).takeWhile (· ≠ q) = cs.takeWhile (· ≠ q) ∧
      (cs ++ rest).dropWhile (· ≠ q) = cs.dropWhile (· ≠ q) ++ rest := by
  induction cs with
  | nil => simp at h
  | cons c cs ih =>
    by_cases hc : c = q
    · simp [hc]
    · have hq : q ∈ cs := by simpa [Ne.symm hc] using h
      simpa [hc] using ih hq

theorem wordTail_newline (cs rest : List Char) :
    wordTail (cs ++ '\n' :: rest) = ((wordTail cs).1, (wordTail cs).2 ++ '\n' :: rest) := by
  have hpart : isWordPart '\n' = false := by decide
  have hstart : isWordStart '\n' = false := by decide
  fun_induction wordTail cs with
  | case1 => cases rest <;> simp [wordTail, hpart]
  | case2 c hc => cases rest <;> simp [wordTail, hc, hpart]
  | case3 c hc => simp [wordTail, hc, hstart]
  | case4 c d cs hc w r hwr ih =>
    rw [hwr, List.cons_append] at ih
    simp [wordTail, hc, ih]
  | case5 c d cs hc hd w r hwr ih =>
    rw [hwr] at ih
    simp [wordTail, hc, hd, ih]
  | case6 c d cs hc hd => simp [wordTail, hc, hd]

theorem number_newline (c : Char) (cs rest : List Char) :
    number c (cs ++ '\n' :: rest) =
      { number c cs with rest := (number c cs).rest ++ '\n' :: rest } := by
  have hdigit : isDigit '\n' = false := by decide
  obtain ⟨htake, hdrop⟩ := takeWhile_newline hdigit cs rest
  unfold number
  rw [htake, hdrop]
  rcases cs.dropWhile isDigit with _ | ⟨d, _ | ⟨e, ds⟩⟩
  · rfl
  · by_cases hd : d = '.'
    · subst hd
      simp [hdigit]
    · simp [hd]
  · by_cases hd : d = '.'
    · subst hd
      obtain ⟨htake, hdrop⟩ := takeWhile_newline hdigit ds rest
      by_cases he : isDigit e = true
      · simp [he, htake, hdrop]
      · simp [he]
    · simp [hd]

theorem quoted_append {q : Char} {cs : List Char} (h : q ∈ cs) (rest : List Char) :
    quoted q (cs ++ rest) = { quoted q cs with rest := (quoted q cs).rest ++ rest } := by
  obtain ⟨htake, hdrop⟩ := takeWhile_append_of_mem h rest
  unfold quoted
  rw [htake, hdrop]
  cases hd : cs.dropWhile (· ≠ q) with
  | nil =>
    have hall := List.takeWhile_append_dropWhile (p := (· ≠ q)) (l := cs)
    rw [hd, List.append_nil] at hall
    rw [← hall] at h
    simpa using List.mem_takeWhile_imp h
  | cons close ds => simp

theorem isPrefixOf_newline {w : List Char} (hw : '\n' ∉ w) (cs rest : List Char) :
    w.isPrefixOf (cs ++ '\n' :: rest) = w.isPrefixOf cs := by
  induction w generalizing cs with
  | nil => simp
  | cons d w ih =>
    obtain ⟨hd, hw⟩ : '\n' ≠ d ∧ '\n' ∉ w := by simpa using hw
    cases cs with
    | nil => simp [List.isPrefixOf, Ne.symm hd]
    | cons c cs => simp [List.isPrefixOf, ih hw]

theorem symbol_newline (c : Char) (cs rest : List Char) :
    symbol c (cs ++ '\n' :: rest) =
      { symbol c cs with rest := (symbol c cs).rest ++ '\n' :: rest } := by
  have hs : ∀ entry ∈ Kind.symbols, '\n' ∉ entry.1 := by decide
  have hfind : (Kind.symbols.find? fun e ↦ e.1.isPrefixOf (c :: (cs ++ '\n' :: rest))) =
      Kind.symbols.find? fun e ↦ e.1.isPrefixOf (c :: cs) :=
    List.find?_congr fun e he ↦ isPrefixOf_newline (hs e he) (c :: cs) rest
  unfold symbol
  rw [hfind]
  cases hf : Kind.symbols.find? fun e ↦ e.1.isPrefixOf (c :: cs) with
  | none => rfl
  | some entry =>
    have hpre : entry.1 <+: c :: cs :=
      List.isPrefixOf_iff_prefix.mp (by simpa using List.find?_some hf)
    have hdrop : (c :: cs ++ '\n' :: rest).drop entry.1.length =
        (c :: cs).drop entry.1.length ++ '\n' :: rest :=
      List.drop_append_of_le_length hpre.length_le
    simpa using hdrop

/-- A piece that is no run of blanks and no string without its closing quote ends before a line
feed. -/
theorem cut_newline {c : Char} {cs : List Char} (hb : isBlank c = false)
    (hq : c = '"' ∨ c = '\'' → c ∈ cs) (rest : List Char) :
    cut c (cs ++ '\n' :: rest) = { cut c cs with rest := (cut c cs).rest ++ '\n' :: rest } := by
  have hhead : (cs ++ '\n' :: rest).head? = some '/' ↔ cs.head? = some '/' := by
    cases cs <;> simp
  unfold cut
  simp only [hb, Bool.false_eq_true, if_false, hhead]
  split
  · rw [wordTail_newline]
  split
  · exact number_newline c cs rest
  split
  · next hc => exact quoted_append (hq (by simpa using hc)) _
  split
  · obtain ⟨htake, hdrop⟩ := takeWhile_newline (p := (· ≠ '\n')) (by decide) cs rest
    rw [run, run, htake, hdrop]
  · exact symbol_newline c cs rest

/-! ### Texts before a line feed -/

/-- The text ends inside a string: its last piece is a quote that is not closed. -/
def endsInString : List Char → Bool
  | [] => false
  | c :: cs => ((c = '"' || c = '\'') && !cs.contains c) || endsInString (cut c cs).rest
termination_by cs => cs.length
decreasing_by exact length_rest_lt c cs

theorem kind_cut_of_quote {c : Char} (hc : c = '"' ∨ c = '\'') (cs : List Char) :
    (cut c cs).kind = some .str := by
  have hclass : isBlank c = false ∧ isWordStart c = false ∧ isDigit c = false := by
    rcases hc with rfl | rfl <;> decide
  have hcut : cut c cs = quoted c cs := by simp [cut, hclass, hc]
  rw [hcut, kind_quoted]

/-- The rest of a quote that is not closed is empty. -/
theorem rest_cut_of_quote {c : Char} (hc : c = '"' ∨ c = '\'') {cs : List Char} (hcs : c ∉ cs) :
    (cut c cs).rest = [] := by
  have hclass : isBlank c = false ∧ isWordStart c = false ∧ isDigit c = false := by
    rcases hc with rfl | rfl <;> decide
  have hcut : cut c cs = quoted c cs := by simp [cut, hclass, hc]
  have hdrop : cs.dropWhile (· ≠ c) = [] := by
    rw [← List.append_nil cs, List.dropWhile_append_of_pos]
    · rfl
    · intro d hd
      have hne : d ≠ c := by
        rintro rfl
        exact hcs hd
      simpa using hne
  rw [hcut, quoted, hdrop]

/-- A text whose last token is no string does not end inside one. -/
theorem endsInString_eq_false {p : Position} {cs : List Char}
    (h : ∀ t ∈ (tokensFrom p cs).getLast?, t.kind ≠ .str) : endsInString cs = false := by
  fun_induction tokensFrom p cs with
  | case1 => rw [endsInString]
  | case2 p c cs piece following hk ih =>
    have hc : ¬ (c = '"' ∨ c = '\'') := by
      intro hc
      rw [show piece.kind = some .str from kind_cut_of_quote hc cs] at hk
      cases hk
    rw [endsInString, ih h]
    simpa using fun h' ↦ absurd h' hc
  | case3 p c cs piece following k hk ih =>
    have hfollowing : ∀ t ∈ following.getLast?, t.kind ≠ .str := by
      intro t ht
      refine h t ?_
      rw [List.getLast?_cons, ht]
      rfl
    have hc : (c = '"' ∨ c = '\'') → c ∈ cs := by
      intro hc
      by_contra hcs
      -- The piece reaches to the end, so it is the last token.
      have hrest : following = [] := by
        change tokensFrom _ (cut c cs).rest = []
        rw [rest_cut_of_quote hc hcs, tokensFrom_nil]
      rw [show piece.kind = some .str from kind_cut_of_quote hc cs] at hk
      obtain rfl := Option.some.inj hk
      rw [hrest] at h
      exact h _ rfl rfl
    rw [endsInString, ih hfollowing]
    simpa using hc

/-- A blank before a text does not change how it ends. -/
theorem endsInString_blank {c : Char} (hc : isBlank c = true) (cs : List Char) :
    endsInString (c :: cs) = endsInString cs := by
  have hmark : ∀ (d : Char) (b : Bool), isBlank d = true →
      ((d = '"' || d = '\'') && b) = false := by
    intro d b hd
    have hquote : d ≠ '"' ∧ d ≠ '\'' := by
      constructor <;> rintro rfl <;> simp [isBlank] at hd
    simp [hquote]
  rw [endsInString, hmark c _ hc, Bool.false_or]
  simp only [cut, hc, ↓reduceIte, run]
  cases cs with
  | nil => rfl
  | cons d cs =>
    by_cases hd : isBlank d = true
    · rw [endsInString, hmark d _ hd, Bool.false_or]
      simp [cut, hd, run]
    · simp [hd]

theorem tokensFrom_newline (p : Position) (rest : List Char) :
    tokensFrom p ('\n' :: rest) = tokensFrom (p.advance '\n') rest :=
  tokensFrom_blank p (by decide) rest

/-- The tokens of two texts with a line feed between them. -/
theorem tokensFrom_append_newline {cs : List Char} (h : endsInString cs = false) (p : Position)
    (rest : List Char) :
    tokensFrom p (cs ++ '\n' :: rest) =
      tokensFrom p cs ++ tokensFrom ((p.after cs).advance '\n') rest := by
  induction hn : cs.length using Nat.strongRecOn generalizing cs p with
  | ind n ih =>
    cases cs with
    | nil => simp [tokensFrom_newline]
    | cons c cs =>
      subst hn
      by_cases hb : isBlank c = true
      · rw [endsInString_blank hb] at h
        rw [List.cons_append, tokensFrom_blank p hb, tokensFrom_blank p hb,
          ih cs.length (Nat.lt_succ_self _) h _ rfl, Position.after_cons]
      · rw [endsInString, Bool.or_eq_false_iff] at h
        have hcut := cut_newline (Bool.eq_false_iff.mpr hb) (by simpa using h.1) rest
        have hafter : (p.after (cut c cs).span).after (cut c cs).rest = p.after (c :: cs) := by
          rw [← Position.after_append, span_append_rest]
        have hrest := ih _ (length_rest_lt c cs) h.2 (p.after (cut c cs).span) rfl
        rw [hafter] at hrest
        rw [List.cons_append, tokensFrom, tokensFrom, hcut]
        dsimp only
        cases (cut c cs).kind with
        | none => exact hrest
        | some k => simp [hrest]

end Scanner

/-! ### Places of joined texts -/

/-- The place so many bytes and lines further on, in the same column. -/
def Position.shift (bytes lines : Nat) (p : Position) : Position :=
  ⟨p.offset + bytes, p.line + lines, p.column⟩

/-- The token at another place. -/
def Token.relocate (g : Position → Position) (t : Token) : Token :=
  { t with position := g t.position }

theorem Position.shift_advance (bytes lines : Nat) (p : Position) (c : Char) :
    (p.advance c).shift bytes lines = (p.shift bytes lines).advance c := by
  by_cases hc : c = '\n'
  · simp only [advance, shift, hc, if_true, Nat.add_right_comm]
  · simp only [advance, shift, hc, if_false, Nat.add_right_comm]

theorem Position.offset_after (p : Position) (text : List Char) :
    (p.after text).offset = p.offset + (String.ofList text).utf8ByteSize := by
  induction text generalizing p with
  | nil => simp
  | cons c text ih =>
    have hadvance : (p.advance c).offset = p.offset + c.utf8Size := by
      unfold Position.advance
      split <;> rfl
    rw [after_cons, ih, hadvance, String.ofList_cons, String.utf8ByteSize_append,
      String.utf8ByteSize_singleton, Nat.add_assoc]

theorem Position.line_after (p : Position) (text : List Char) :
    (p.after text).line = p.line + text.count '\n' := by
  induction text generalizing p with
  | nil => simp
  | cons c text ih =>
    rw [after_cons, ih, List.count_cons]
    unfold Position.advance
    by_cases hc : c = '\n'
    · simp only [hc, if_true, beq_self_eq_true]
      omega
    · simp [hc]

/-- How much further on the places of a text are when another one and a line feed stand before
it. -/
def Position.behind (source : String) : Position → Position :=
  Position.shift (source.utf8ByteSize + 1) (source.toList.count '\n' + 1)

/-- The place behind a text and a line feed. -/
theorem Position.advance_ofEnd (source : String) :
    (Position.ofEnd source).advance '\n' = Position.start.behind source := by
  have hoffset := Position.offset_after .start source.toList
  have hline := Position.line_after .start source.toList
  rw [String.ofList_toList] at hoffset
  have hsize : '\n'.utf8Size = 1 := by decide
  simp only [advance, if_true, ofEnd, hoffset, hline, hsize, behind, shift, Nat.add_assoc]
  rfl

theorem Position.behind_after (source : String) (p : Position) (text : List Char) :
    (p.after text).behind source = (p.behind source).after text := by
  induction text generalizing p with
  | nil => rfl
  | cons c text ih =>
    rw [after_cons, ih, after_cons]
    exact congrArg (Position.after · text) (Position.shift_advance _ _ p c)

/-- The tokens of a text that starts at another place. -/
theorem Scanner.tokensFrom_relocate {g : Position → Position}
    (hg : ∀ (p : Position) (text : List Char), g (p.after text) = (g p).after text)
    (p : Position) (cs : List Char) :
    tokensFrom (g p) cs = (tokensFrom p cs).map (Token.relocate g) := by
  fun_induction tokensFrom p cs with
  | case1 p => simp
  | case2 p c cs piece following hk ih =>
    rw [tokensFrom, show (cut c cs).kind = none from hk]
    rw [hg] at ih
    exact ih
  | case3 p c cs piece following k hk ih =>
    rw [tokensFrom, show (cut c cs).kind = some k from hk]
    rw [hg] at ih
    simp only [List.map_cons, Token.relocate]
    exact congrArg _ ih

/-- The tokens of two texts with a line feed between them are those of the first, and those of the
second at places further on, unless the first ends inside a string. -/
theorem Token.ofSource_append_newline {first : String}
    (h : Scanner.endsInString first.toList = false) (second : String) :
    Token.ofSource (first ++ "\n" ++ second) =
      Token.ofSource first ++ (Token.ofSource second).map (Token.relocate (.behind first)) := by
  have htext : (first ++ "\n" ++ second).toList = first.toList ++ '\n' :: second.toList := by
    simp
  have hplace : ((Position.start.after first.toList).advance '\n') =
      Position.start.behind first := Position.advance_ofEnd first
  rw [Token.ofSource, htext, Scanner.tokensFrom_append_newline h, hplace,
    Scanner.tokensFrom_relocate (Position.behind_after first)]
  rfl

/-! ### Lines -/

/-- The token is a string without a closing quote: behind the opening one, where the token stands,
the source has the text of the token and nothing else. -/
def Token.Unterminated (source : String) (t : Token) : Prop :=
  t.kind = .str ∧ ∃ (before : List Char) (q : Char), (q = '"' ∨ q = '\'') ∧
    source.toList = before ++ q :: t.literal.toList ∧ t.position = Position.start.after before

/-- The last token of a text that ends inside a string is the rest of the text behind a quote. -/
theorem Scanner.getLast?_of_endsInString {p : Position} {cs : List Char}
    (h : endsInString cs = true) :
    ∃ (before : List Char) (q : Char) (body : List Char), (q = '"' ∨ q = '\'') ∧
      cs = before ++ q :: body ∧
      (tokensFrom p cs).getLast? = some ⟨.str, String.ofList body, p.after before⟩ := by
  fun_induction tokensFrom p cs with
  | case1 => simp [endsInString] at h
  | case2 p c cs piece following hk ih =>
    have hsplit : piece.span ++ piece.rest = c :: cs := span_append_rest c cs
    rw [endsInString, Bool.or_eq_true] at h
    rcases h with h | h
    · -- A quote starts no blanks.
      have hc : c = '"' ∨ c = '\'' := by simpa using (Bool.and_eq_true_iff.mp h).1
      rw [show piece.kind = some .str from kind_cut_of_quote hc cs] at hk
      cases hk
    · obtain ⟨before, q, body, hq, hrest, hlast⟩ := ih h
      rw [← Position.after_append] at hlast
      exact ⟨piece.span ++ before, q, body, hq, by rw [← hsplit, hrest, List.append_assoc], hlast⟩
  | case3 p c cs piece following k hk ih =>
    have hsplit : piece.span ++ piece.rest = c :: cs := span_append_rest c cs
    rw [endsInString, Bool.or_eq_true] at h
    rcases h with h | h
    · obtain ⟨hc, hcs⟩ : (c = '"' ∨ c = '\'') ∧ c ∉ cs := by simpa using h
      have hrest : piece.rest = [] := rest_cut_of_quote hc hcs
      have hfollowing : following = [] := by
        change tokensFrom _ piece.rest = []
        rw [hrest, tokensFrom_nil]
      rw [show piece.kind = some .str from kind_cut_of_quote hc cs] at hk
      obtain rfl := Option.some.inj hk
      rw [hrest, List.append_nil] at hsplit
      have hliteral : literal .str piece.span = cs := by
        rw [hsplit]
        refine List.takeWhile_eq_self_iff.mpr fun d hd ↦ ?_
        have hne : d ≠ c := by
          rintro rfl
          exact hcs hd
        simpa using hne
      exact ⟨[], c, cs, hc, rfl, by rw [hfollowing, hliteral]; rfl⟩
    · obtain ⟨before, q, body, hq, hrest, hlast⟩ := ih h
      rw [← Position.after_append] at hlast
      refine ⟨piece.span ++ before, q, body, hq, by rw [← hsplit, hrest, List.append_assoc], ?_⟩
      rw [List.getLast?_cons, hlast]
      rfl

theorem Token.endsInString_eq_false {source : String}
    (h : ∀ t ∈ (Token.ofSource source).getLast?, ¬ t.Unterminated source) :
    Scanner.endsInString source.toList = false := by
  cases hends : Scanner.endsInString source.toList with
  | false => rfl
  | true =>
    obtain ⟨before, q, body, hq, hsource, hlast⟩ :=
      Scanner.getLast?_of_endsInString (p := Position.start) hends
    exact absurd ⟨rfl, before, q, hq, by simpa using hsource, rfl⟩ (h _ hlast)

theorem Token.openBrackets_map_relocate (g : Position → Position) (ts : List Token) :
    Token.openBrackets (ts.map (Token.relocate g)) = Token.openBrackets ts := by
  induction ts with
  | nil => rfl
  | cons t ts ih => rw [List.map_cons, openBrackets_cons, openBrackets_cons, ih]; rfl

/-- Unless the last token of the first text is a string without a closing quote, the tokens of two
texts with a line feed between them are those of the first and, further on by its bytes and lines
and in the same columns, those of the second. So the brackets that they leave open add up. -/
theorem Token.ofSource_lines (first second : String)
    (h : ∀ t ∈ (Token.ofSource first).getLast?, ¬ t.Unterminated first) :
    Token.ofSource (first ++ "\n" ++ second) =
      Token.ofSource first ++ ((Token.ofSource second).map fun t ↦
        { t with position :=
          ⟨t.position.offset + (first.utf8ByteSize + 1),
            t.position.line + (first.toList.count '\n' + 1), t.position.column⟩ }) ∧
    Treewalk.openBrackets (first ++ "\n" ++ second) =
      Treewalk.openBrackets first + Treewalk.openBrackets second := by
  have htokens := Token.ofSource_append_newline (Token.endsInString_eq_false h) second
  refine ⟨htokens, ?_⟩
  rw [Treewalk.openBrackets, htokens, Token.openBrackets_append, Token.openBrackets_map_relocate]
  rfl

/-- The first text ends in a closed string over two lines with brackets in it, behind a number and a
name that the next character could have made longer; the second has a bracket in a comment. -/
theorem Token.ofSource_lines_closed :
    let first := "f([1. a-, 'é\x7d\n\x7b'"
    let second := "[\"(\" # ]\n)"
    (∀ t ∈ (Token.ofSource first).getLast?, ¬ t.Unterminated first) ∧
    (Token.ofSource (first ++ "\n" ++ second)).drop (Token.ofSource first).length =
      [⟨.lbracket, "[", ⟨18, 3, 1⟩⟩, ⟨.str, "(", ⟨19, 3, 2⟩⟩,
        ⟨.comment, "# ]", ⟨23, 3, 6⟩⟩, ⟨.rparen, ")", ⟨27, 4, 1⟩⟩] ∧
    Treewalk.openBrackets (first ++ "\n" ++ second) = 2 := by
  intro first second
  have hlast : (Token.ofSource first).getLast? =
      some ⟨.str, "é\x7d\n\x7b", ⟨10, 1, 11⟩⟩ := by decide +kernel
  have hclosed : ∀ t ∈ (Token.ofSource first).getLast?, ¬ t.Unterminated first := by
    rw [hlast]
    rintro _ ⟨⟩ ⟨-, before, q, -, hsource, -⟩
    have hquote : first.toList.getLast? = some '\'' := by decide +kernel
    have hbrace : "é\x7d\n\x7b".toList.getLast? = some '\x7b' := by decide +kernel
    rw [hsource, List.getLast?_append, List.getLast?_cons, hbrace] at hquote
    simp at hquote
  obtain ⟨htokens, hbrackets⟩ := Token.ofSource_lines first second hclosed
  refine ⟨hclosed, ?_, ?_⟩
  · rw [htokens, List.drop_left]
    decide +kernel
  · rw [hbrackets]
    decide +kernel

theorem Position.ofEnd_append_newline (first second : String) :
    Position.ofEnd (first ++ "\n" ++ second) = (Position.ofEnd second).behind first := by
  have htext : (first ++ "\n" ++ second).toList = first.toList ++ '\n' :: second.toList := by
    simp
  rw [Position.ofEnd, htext, Position.after_append, Position.after_cons, Position.ofEnd,
    Position.behind_after]
  exact congrArg (Position.after · second.toList) (Position.advance_ofEnd first)

end Treewalk
