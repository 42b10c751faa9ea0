import Mathlib.Data.List.Find
import Treewalk.Decimal.Reading
import Treewalk.Token.Scanner

/-!
# Texts that are cut where they were joined

`Splits k w rest` says that the text `w ++ rest` starts with a token of kind `k` that covers `w` and
no more. For each class of tokens there is a condition on `rest` under which this holds: a word and
a number need a text that does not go on with them (`Ends`), a symbol one that makes no longer
symbol (`splits_symbol`), a bracket or a comma nothing (`Separator.splits`). A text put together
from such pieces therefore gives its pieces back (`Splits.tokensFrom_append`).
-/

set_option autoImplicit false
set_option relaxedAutoImplicit false

namespace Treewalk.Scanner

/-- The text does not go on with a word or a number that stands before it. -/
def Ends : List Char → Bool
  | [] => true
  | [c] => !isWordPart c
  | c :: d :: _ => !isWordPart c && !(c = '-' && isWordStart d) && !(c = '.' && isDigit d)

theorem ends_cons {c : Char} (rest : List Char) (hw : isWordPart c = false) (hm : c ≠ '-')
    (hd : c ≠ '.') : Ends (c :: rest) = true := by
  cases rest <;> simp [Ends, hw, hm, hd]

/-- The text `w ++ rest` starts with a token of kind `k` that covers `w`. -/
def Splits (k : Kind) (w rest : List Char) : Prop :=
  ∃ c cs, w = c :: cs ∧ cut c (cs ++ rest) = ⟨some k, w, rest⟩

@[simp] theorem tokensFrom_nil (p : Position) : tokensFrom p [] = [] := by
  rw [tokensFrom]

theorem Splits.tokensFrom_append {k : Kind} {w rest : List Char} (h : Splits k w rest)
    (p : Position) :
    tokensFrom p (w ++ rest) =
      ⟨k, String.ofList (literal k w), p⟩ :: tokensFrom (p.after w) rest := by
  obtain ⟨c, cs, rfl, hc⟩ := h
  rw [List.cons_append, tokensFrom, hc]

/-! ### Blanks -/

theorem isWordStart_of_isBlank {c : Char} (h : isBlank c = true) : isWordStart c = false := by
  simp only [isBlank, Bool.or_eq_true, decide_eq_true_eq] at h
  rcases h with (((rfl | rfl) | rfl) | rfl) | rfl <;> decide

theorem isBlank_of_isDigit {c : Char} (h : isDigit c = true) : isBlank c = false := by
  cases hb : isBlank c with
  | false => rfl
  | true =>
    simp only [isBlank, Bool.or_eq_true, decide_eq_true_eq] at hb
    rcases hb with (((rfl | rfl) | rfl) | rfl) | rfl <;> simp [isDigit] at h

theorem isWordStart_of_isDigit {c : Char} (h : isDigit c = true) : isWordStart c = false := by
  simp only [isDigit, Bool.and_eq_true, decide_eq_true_eq, Char.le_def, UInt32.le_iff_toNat_le] at h
  cases hw : isWordStart c with
  | false => rfl
  | true =>
    simp only [isWordStart, Bool.or_eq_true, Bool.and_eq_true, decide_eq_true_eq, Char.le_def,
      UInt32.le_iff_toNat_le] at hw
    rcases hw with (hw | hw) | rfl
    · simp at h hw
      omega
    · simp at h hw
      omega
    · simp at h

/-- A blank before a text only moves its place. -/
theorem tokensFrom_blank (p : Position) {c : Char} (hc : isBlank c = true) (rest : List Char) :
    tokensFrom p (c :: rest) = tokensFrom (p.advance c) rest := by
  rw [tokensFrom]
  simp only [cut, hc, ↓reduceIte, run, Position.after_cons]
  cases rest with
  | nil => rfl
  | cons d rest =>
    by_cases hd : isBlank d = true
    · rw [tokensFrom]
      simp [cut, hd, run]
    · simp [hd]

/-! ### Words -/

theorem wordTail_of_ends {rest : List Char} (h : Ends rest = true) :
    wordTail rest = ([], rest) := by
  match rest with
  | [] => rfl
  | [c] => simp_all [wordTail, Ends]
  | c :: d :: _ =>
    simp only [Ends, Bool.and_eq_true, Bool.not_eq_true'] at h
    simp [wordTail, h.1.1, h.1.2]

theorem wordTail_append_of_ends {cs rest : List Char} (hw : wordTail cs = (cs, []))
    (h : Ends rest = true) : wordTail (cs ++ rest) = (cs, rest) := by
  have hr := wordTail_of_ends h
  fun_induction wordTail cs with
  | case1 => exact hr
  | case2 c hc =>
    cases rest <;> simp_all [wordTail]
  | case3 c hc => simp at hw
  | case4 c d cs hc w r hwr ih =>
    simp_all [wordTail]
  | case5 c d cs hc hd w r hwr ih =>
    simp_all [wordTail]
  | case6 => simp at hw

/-- A word that stands alone is cut off whole before every text that does not go on with it. -/
theorem splits_word {c : Char} {cs rest : List Char} (hc : isWordStart c = true)
    (hw : wordTail cs = (cs, [])) (h : Ends rest = true) :
    Splits (Kind.ofWord (c :: cs)) (c :: cs) rest := by
  have hb : isBlank c = false := by
    cases hb : isBlank c with
    | false => rfl
    | true => simp [isWordStart_of_isBlank hb] at hc
  refine ⟨c, cs, rfl, ?_⟩
  simp [cut, hc, hb, wordTail_append_of_ends hw h]

/-! ### Numbers -/

theorem takeWhile_append_of_head {p : Char → Bool} {cs rest : List Char} (hp : cs.all p = true)
    (hr : ∀ d ∈ rest.head?, p d = false) :
    (cs ++ rest).takeWhile p = cs ∧ (cs ++ rest).dropWhile p = rest := by
  have hrest : rest.takeWhile p = [] ∧ rest.dropWhile p = rest := by
    cases rest with
    | nil => simp
    | cons d rest => simp [hr d (by simp)]
  have hcs : ∀ c ∈ cs, p c = true := by simpa using hp
  rw [List.takeWhile_append_of_pos hcs, List.dropWhile_append_of_pos hcs, hrest.1, hrest.2]
  simp

/-- A run of digits is cut off whole before every text that does not go on with it. -/
theorem splits_digits {c : Char} {cs rest : List Char} (hc : isDigit c = true)
    (hs : cs.all isDigit = true) (h : Ends rest = true) : Splits .int (c :: cs) rest := by
  have hr : ∀ d ∈ rest.head?, isDigit d = false := by
    intro d hd
    match rest with
    | [] => simp at hd
    | [e] => simp_all [Ends, isWordPart]
    | e :: _ :: _ => simp_all [Ends, isWordPart]
  obtain ⟨ht, hd⟩ := takeWhile_append_of_head hs hr
  refine ⟨c, cs, rfl, ?_⟩
  simp only [cut, isBlank_of_isDigit hc, isWordStart_of_isDigit hc, hc, number, ht, hd,
    Bool.false_eq_true, ↓reduceIte]
  split
  · next d rest =>
    simp only [Ends, Bool.and_eq_true, Bool.not_eq_true', decide_true, Bool.true_and] at h
    simp [h.2]
  · rfl

/-! ### Symbols -/

/-- Characters that no symbol has behind its first. -/
def isSymbolBreak (c : Char) : Bool :=
  isBlank c || isWordPart c || c = '(' || c = ')' || c = '[' || c = '{'

/-- The text starts with a character that no symbol has behind its first. -/
def Breaks (text : List Char) : Prop :=
  ∃ c cs, text = c :: cs ∧ isSymbolBreak c = true

theorem breaks_cons {c : Char} (hc : isSymbolBreak c = true) (cs : List Char) : Breaks (c :: cs) :=
  ⟨c, cs, rfl, hc⟩

theorem find?_symbols {entry : List Char × Kind} (h : entry ∈ Kind.symbols) :
    (Kind.symbols.find? fun e ↦ e.1.isPrefixOf entry.1) = some entry := by
  revert entry
  decide

theorem isSymbolBreak_of_mem_tail {entry : List Char × Kind} (h : entry ∈ Kind.symbols) {c : Char}
    (hc : c ∈ entry.1.tail) : isSymbolBreak c = false := by
  have hs : ∀ entry ∈ Kind.symbols, entry.1.tail.all (!isSymbolBreak ·) = true := by decide
  simpa using List.all_eq_true.mp (hs entry h) c hc

/-- The first character of a symbol starts a token of no other class, except that of a comment. -/
theorem cut_symbol {c : Char} {cs rest : List Char} {k : Kind} (h : (c :: cs, k) ∈ Kind.symbols)
    (hc : c = '/' → (cs ++ rest).head? ≠ some '/') :
    cut c (cs ++ rest) = symbol c (cs ++ rest) := by
  have hs : ∀ entry ∈ Kind.symbols, entry.1.head?.all fun c ↦
      isBlank c = false ∧ isWordStart c = false ∧ isDigit c = false ∧ c ≠ '"' ∧ c ≠ '\'' ∧
        c ≠ '#' := by
    decide
  obtain ⟨hb, hw, hd, hq, hq', hn⟩ := of_decide_eq_true (hs _ h)
  simp only [cut, hb, hw, hd, hq, hq', hn, Bool.false_eq_true, ↓reduceIte, decide_false,
    Bool.or_self, Bool.false_or]
  rw [if_neg]
  simpa using hc

/-- A symbol is cut off whole where no longer symbol starts. -/
theorem splits_of_prefix {c : Char} {cs rest : List Char} {k : Kind}
    (h : (c :: cs, k) ∈ Kind.symbols) (hc : c = '/' → (cs ++ rest).head? ≠ some '/')
    (hp : ∀ entry ∈ Kind.symbols, entry.1 <+: c :: cs ++ rest → entry.1 <+: c :: cs) :
    Splits k (c :: cs) rest := by
  refine ⟨c, cs, rfl, ?_⟩
  have hf :
      (Kind.symbols.find? fun e ↦ e.1.isPrefixOf (c :: (cs ++ rest))) = some (c :: cs, k) := by
    rw [← find?_symbols h]
    refine List.find?_congr fun entry he ↦ ?_
    rw [Bool.eq_iff_iff, List.isPrefixOf_iff_prefix, List.isPrefixOf_iff_prefix]
    exact ⟨hp entry he, fun hw ↦ hw.trans (List.prefix_append (c :: cs) rest)⟩
  rw [cut_symbol h hc, symbol, hf]
  simp

/-- A symbol is cut off whole before a character that no symbol has behind its first. -/
theorem splits_symbol {w rest : List Char} {k : Kind} (h : (w, k) ∈ Kind.symbols)
    (hr : Breaks rest) : Splits k w rest := by
  obtain ⟨c, cs, rfl⟩ := List.exists_cons_of_ne_nil (symbols_ne_nil h)
  obtain ⟨d, rest, rfl, hd⟩ := hr
  have hslash : ∀ entry ∈ Kind.symbols, entry.1.head? = some '/' → entry.1.tail = [] := by decide
  refine splits_of_prefix h ?_ fun entry he hp ↦ ?_
  · rintro rfl hn
    obtain rfl : cs = [] := hslash _ h rfl
    obtain rfl : d = '/' := by simpa using hn
    exact absurd hd (by decide)
  · have hpre := List.prefix_append (c :: cs) (d :: rest)
    rcases List.prefix_or_prefix_of_prefix hp hpre with hw | hw
    · exact hw
    -- A longer symbol would have `d` behind its first character.
    obtain ⟨u, hu⟩ := hw
    rw [← hu, List.prefix_append_right_inj] at hp
    cases u with
    | nil => simp [← hu]
    | cons e u =>
      obtain ⟨rfl, -⟩ := List.cons_prefix_cons.mp hp
      have hb : isSymbolBreak e = false := isSymbolBreak_of_mem_tail he (by simp [← hu])
      rw [hd] at hb
      contradiction

/-- The characters that are symbols of their own and start no other symbol. -/
inductive Separator : Char → Kind → Prop
  | lparen : Separator '(' .lparen
  | rparen : Separator ')' .rparen
  | lbracket : Separator '[' .lbracket
  | rbracket : Separator ']' .rbracket
  | lbrace : Separator '{' .lbrace
  | rbrace : Separator '}' .rbrace
  | comma : Separator ',' .comma
  | colon : Separator ':' .colon
  | semicolon : Separator ';' .semicolon

theorem Separator.ends {c : Char} {k : Kind} (h : Separator c k) (rest : List Char) :
    Ends (c :: rest) = true := by
  cases h <;> exact ends_cons rest (by decide) (by decide) (by decide)

theorem Separator.splits {c : Char} {k : Kind} (h : Separator c k) (rest : List Char) :
    Splits k [c] rest := by
  have hc : ([c], k) ∈ Kind.symbols ∧ c ≠ '/' ∧
      ∀ entry ∈ Kind.symbols, entry.1.head? = some c → entry.1 = [c] := by
    cases h <;> decide
  refine splits_of_prefix hc.1 (fun h' ↦ absurd h' hc.2.1) fun entry he hp ↦ ?_
  obtain ⟨e, es, hes⟩ := List.exists_cons_of_ne_nil (symbols_ne_nil he)
  rw [hes] at hp
  obtain ⟨rfl, -⟩ := List.cons_prefix_cons.mp hp
  have hone : entry.1 = [e] := hc.2.2 entry he (by simp [hes])
  exact hone ▸ List.prefix_rfl

/-! ### Texts that are one token -/

/-- The text is one token of kind `k` from its first character to its last. -/
def IsLexeme (k : Kind) (text : String) : Prop :=
  Token.ofSource text = [⟨k, text, Position.start⟩]

instance (k : Kind) (text : String) : Decidable (IsLexeme k text) :=
  inferInstanceAs (Decidable (_ = _))

theorem offset_lt_advance (p : Position) (c : Char) : p.offset < (p.advance c).offset := by
  have hc := c.utf8Size_pos
  unfold Position.advance
  split <;> simp only <;> omega

theorem offset_le_after (p : Position) (text : List Char) : p.offset ≤ (p.after text).offset := by
  induction text generalizing p with
  | nil => exact Nat.le_refl _
  | cons c text ih => exact Nat.le_trans (Nat.le_of_lt (offset_lt_advance p c)) (ih (p.advance c))

theorem offset_le_of_mem_tokensFrom {p : Position} {cs : List Char} {t : Token}
    (h : t ∈ tokensFrom p cs) : p.offset ≤ t.position.offset := by
  fun_induction tokensFrom p cs with
  | case1 => simp at h
  | case2 p c cs piece following hk ih => exact Nat.le_trans (offset_le_after p _) (ih h)
  | case3 p c cs piece following k hk ih =>
    rcases List.mem_cons.mp h with rfl | h
    · exact Nat.le_refl _
    · exact Nat.le_trans (offset_le_after p _) (ih h)

theorem literal_of_ne {k : Kind} (hk : k ≠ .str) (span : List Char) : literal k span = span := by
  unfold literal
  split
  · contradiction
  · rfl

/-- A text that is one token, not a string, is covered by its first piece. -/
theorem IsLexeme.cut_eq {k : Kind} {text : String} (h : IsLexeme k text) (hk : k ≠ .str) :
    ∃ c cs, text.toList = c :: cs ∧ cut c cs = ⟨some k, c :: cs, []⟩ := by
  unfold IsLexeme Token.ofSource at h
  cases ht : text.toList with
  | nil => simp [ht] at h
  | cons c cs =>
    refine ⟨c, cs, rfl, ?_⟩
    rw [ht, tokensFrom] at h
    have happ := span_append_rest c cs
    rcases hp : cut c cs with ⟨kind, span, rest⟩
    simp only [hp] at h happ
    cases kind with
    | none =>
      -- The token would stand behind the blanks, and it stands at the start.
      exfalso
      have hs := span_ne_nil c cs
      rw [hp] at hs
      obtain ⟨d, ds, rfl⟩ := List.exists_cons_of_ne_nil hs
      have hm := offset_le_of_mem_tokensFrom (h ▸ List.mem_singleton_self _)
      have hd := offset_lt_advance .start d
      have ha := offset_le_after (Position.start.advance d) ds
      simp only [Position.after_cons] at hm
      omega
    | some k' =>
      simp only [List.cons.injEq, Token.mk.injEq] at h
      obtain ⟨⟨rfl, hl, -⟩, -⟩ := h
      have hs : span = c :: cs := by
        rw [← ht, ← hl, String.toList_ofList, literal_of_ne hk]
      rw [hs, List.append_right_eq_self] at happ
      rw [hs, happ]

/-! ### The class of a piece -/

theorem kind_number (c : Char) (cs : List Char) :
    (number c cs).kind = some .int ∨ (number c cs).kind = some .float := by
  unfold number
  split
  · split <;> simp
  · simp

theorem kind_quoted (q : Char) (cs : List Char) : (quoted q cs).kind = some .str := by
  unfold quoted
  split <;> rfl

theorem kind_symbol_ne (c : Char) (cs : List Char) :
    (symbol c cs).kind ≠ some .ident ∧ (symbol c cs).kind ≠ some .comment := by
  have hs : ∀ entry ∈ Kind.symbols, entry.2 ≠ .ident ∧ entry.2 ≠ .comment := by decide
  unfold symbol
  split
  · next hf => simpa using hs _ (List.mem_of_find?_eq_some hf)
  · simp

theorem ofWord_ne_comment (word : List Char) : Kind.ofWord word ≠ .comment := by
  have hs : ∀ entry ∈ Kind.keywords, entry.2 ≠ .comment := by decide
  unfold Kind.ofWord
  cases hw : Kind.keywords.lookup word with
  | none => simp
  | some k =>
    obtain ⟨l₁, l₂, hl, -⟩ := List.lookup_eq_some_iff.mp hw
    exact hs (word, k) (by simp [hl])

/-- A name is a word and no more. -/
theorem isWord_of_cut {c : Char} {cs : List Char} (h : cut c cs = ⟨some .ident, c :: cs, []⟩) :
    isWordStart c = true ∧ wordTail cs = (cs, []) ∧ Kind.ofWord (c :: cs) = .ident := by
  unfold cut at h
  split at h
  · simp [run] at h
  split at h
  · next hw =>
    obtain ⟨hk, hs, hr⟩ : Kind.ofWord (c :: (wordTail cs).1) = .ident ∧ (wordTail cs).1 = cs ∧
        (wordTail cs).2 = [] := by simpa using h
    exact ⟨hw, Prod.ext hs hr, hs ▸ hk⟩
  split at h
  · rcases kind_number c cs with hn | hn <;> simp [h] at hn
  split at h
  · simpa [h] using kind_quoted c cs
  split at h
  · simp [run] at h
  · exact absurd (congrArg Piece.kind h) (kind_symbol_ne c cs).1

/-- A comment starts with its mark and has no line feed. -/
theorem isComment_of_cut {c : Char} {cs : List Char} (h : cut c cs = ⟨some .comment, c :: cs, []⟩) :
    (∀ rest, cut c (cs ++ rest) = run (some .comment) (· ≠ '\n') c (cs ++ rest)) ∧
      cs.all (· ≠ '\n') = true := by
  unfold cut at h
  split at h
  · simp [run] at h
  next hb =>
  split at h
  · exact absurd (Option.some.inj (congrArg Piece.kind h)) (ofWord_ne_comment _)
  next hw =>
  split at h
  · rcases kind_number c cs with hn | hn <;> simp [h] at hn
  next hd =>
  split at h
  · simpa [h] using kind_quoted c cs
  next hq =>
  split at h
  · next hc =>
    refine ⟨fun rest ↦ ?_, ?_⟩
    · have hc' : (c = '#' || (c = '/' && (cs ++ rest).head? = some '/')) = true := by
        cases cs <;> simp_all
      simp only [cut, hb, hw, hd, hq, hc', ↓reduceIte, Bool.false_eq_true]
    · have ht : cs.takeWhile (· ≠ '\n') = cs := by
        simpa [run] using congrArg (List.tail ∘ Piece.span) h
      rw [← ht]
      exact List.all_takeWhile
  · exact absurd (congrArg Piece.kind h) (kind_symbol_ne c cs).2

/-! ### Pieces of printed texts -/

theorem IsLexeme.splits_ident {text : String} {rest : List Char} (h : IsLexeme .ident text)
    (hr : Ends rest = true) : Splits .ident text.toList rest := by
  obtain ⟨c, cs, ht, hc⟩ := h.cut_eq (by decide)
  obtain ⟨hs, hw, hk⟩ := isWord_of_cut hc
  have h := splits_word hs hw hr
  rwa [hk, ← ht] at h

theorem IsLexeme.splits_comment {text : String} (h : IsLexeme .comment text) (rest : List Char) :
    Splits .comment text.toList ('\n' :: rest) := by
  obtain ⟨c, cs, ht, hc⟩ := h.cut_eq (by decide)
  obtain ⟨hrun, hall⟩ := isComment_of_cut hc
  have hr : ∀ d ∈ ('\n' :: rest).head?, decide (d ≠ '\n') = false := by simp
  obtain ⟨htake, hdrop⟩ := takeWhile_append_of_head hall hr
  exact ⟨c, cs, ht, by rw [hrun, run, htake, hdrop, ht]⟩

theorem splits_keyword {word rest : List Char} {k : Kind} (h : (word, k) ∈ Kind.keywords)
    (hr : Ends rest = true) : Splits k word rest := by
  have hs : ∀ entry ∈ Kind.keywords, Kind.ofWord entry.1 = entry.2 ∧
      entry.1.head?.any isWordStart = true ∧ wordTail entry.1.tail = (entry.1.tail, []) := by
    decide
  obtain ⟨hk, hw, ht⟩ := hs _ h
  cases word with
  | nil => simp at hw
  | cons c cs =>
    obtain rfl : Kind.ofWord (c :: cs) = k := hk
    exact splits_word (by simpa using hw) ht hr

theorem isDigit_of_mem_toDigits {c : Char} {n : Nat} (h : c ∈ Nat.toDigits 10 n) :
    isDigit c = true := by
  have hd := Nat.isDigit_of_mem_toDigits (by decide) (by decide) h
  simpa [Char.isDigit, isDigit, Char.le_def] using hd

theorem splits_natural (n : Nat) {rest : List Char} (hr : Ends rest = true) :
    Splits .int n.repr.toList rest := by
  obtain ⟨c, cs, hd⟩ := List.exists_cons_of_ne_nil (Nat.toDigits_ne_nil (n := n) (b := 10))
  have hall : ∀ d ∈ c :: cs, isDigit d = true := fun d h ↦ isDigit_of_mem_toDigits (hd ▸ h)
  rw [Nat.toList_repr, hd]
  exact splits_digits (hall c (by simp)) (by simpa using fun d h ↦ hall d (by simp [h])) hr

end Treewalk.Scanner

namespace Treewalk.Decimal

theorem takeSign_of_isDigit {ds : List Char} (h : ds.all isDigit = true) :
    takeSign ds = (false, ds) := by
  unfold takeSign
  split
  · simp [isDigit] at h
  · simp [isDigit] at h
  · rfl

/-- The digits of a number are read back. -/
theorem readInt?_repr (n : Nat) : readInt? n.repr.toList = some (n : Int) := by
  have hall : (Nat.toDigits 10 n).all isDigit = true :=
    List.all_eq_true.mpr fun c h ↦ Scanner.isDigit_of_mem_toDigits h
  have hv : digitsValue (Nat.toDigits 10 n) = n := Nat.ofDigitChars_ten_toDigits
  rw [Nat.toList_repr, readInt?, takeSign_of_isDigit hall]
  simp [readNat?, hall, hv, Nat.toDigits_ne_nil]

end Treewalk.Decimal
