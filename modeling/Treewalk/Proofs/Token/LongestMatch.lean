import Mathlib.Data.List.TakeWhile
import Treewalk.Proofs.Token.Lexicon

/-!
# The longest word is taken

`Piece.IsNext` says what the next piece of a text is in terms of the lexicon alone: the longest of
its words that the text starts with, or one illegal character where there is none. At most one piece
is next (`Piece.IsNext.unique`). For each sort of first character the piece that `cut` takes is
next; the two facts behind this are that a run of a class is as long as it can be
(`length_le_takeWhile`) and that the table of symbols has longer spellings first
(`length_le_of_find?`).

`Munches` repeats this from the start of a text to its end, so it defines the tokens of a text
without the scanner; `eq_ofSource_iff_munches` says that the scanner finds them.
-/

set_option autoImplicit false
set_option relaxedAutoImplicit false

namespace Treewalk.Scanner

/-! ### The longest word -/

/-- The piece is the longest word of the lexicon that the text starts with, or one illegal
character where no word starts. -/
structure Piece.IsNext (piece : Piece) (text : List Char) : Prop where
  split : piece.span ++ piece.rest = text
  longest : ∀ k w, Declared k w → w <+: text → w.length ≤ piece.span.length
  illegal_iff : piece.kind = some .illegal ↔ ∀ k w, Declared k w → w ≠ [] → ¬ w <+: text
  single : piece.kind = some .illegal → piece.span.length = 1
  declared : piece.kind ≠ some .illegal → ∃ k, Declared k piece.span
  keyword : ∀ k, (piece.span, k) ∈ Kind.keywords → piece.kind = some k
  pattern : (∀ k, (piece.span, k) ∉ Kind.keywords) →
    ∀ k, Declared k piece.span → piece.kind = k

/-- A word of the lexicon is next if no longer one starts there, and if no rule has it for another
kind. Only a keyword has one: it is also a name. -/
theorem Piece.isNext_of_forms {piece : Piece} {c : Char} {cs : List Char}
    (hsplit : piece.span ++ piece.rest = c :: cs) (hword : Spelled piece.kind piece.span)
    (hforms : ∀ k v, v <+: cs → (Start.of c).Form k c v →
      v.length + 1 ≤ piece.span.length ∧
        (piece.span = c :: v →
          piece.kind = k ∨ k = some .ident ∧ ∃ j, (piece.span, j) ∈ Kind.keywords)) :
    piece.IsNext (c :: cs) := by
  have hkind : ∀ k, Spelled k piece.span →
      piece.kind = k ∨ k = some .ident ∧ ∃ j, (piece.span, j) ∈ Kind.keywords := by
    intro k hk
    obtain ⟨v, hv, hp, hform⟩ := hk.exists_form ⟨_, hsplit⟩
    exact (hforms k v hp hform).2 hv
  refine ⟨hsplit, fun k w hw hp ↦ ?_, iff_of_false hword.kind_ne.1 fun h ↦ ?_,
    fun h ↦ absurd h hword.kind_ne.1, fun _ ↦ ⟨_, declared_iff.mpr hword⟩, fun k hk ↦ ?_,
    fun hnone k hk ↦ ?_⟩
  · obtain ⟨v, rfl, hp, hform⟩ := (declared_iff.mp hw).exists_form hp
    exact (hforms k v hp hform).1
  · exact h _ _ (declared_iff.mpr hword) hword.ne_nil ⟨_, hsplit⟩
  · have hs : ∀ e ∈ Kind.keywords, some e.2 ≠ some Kind.ident := by decide
    rcases hkind _ (.keyword hk) with h | ⟨h, -⟩
    · exact h
    · exact absurd h (hs _ hk)
  · rcases hkind k (declared_iff.mp hk) with h | ⟨-, j, hj⟩
    · exact h
    · exact absurd hj (hnone j)

/-- A next piece that is not illegal is a word for its own kind. -/
theorem Piece.IsNext.spelled {piece : Piece} {text : List Char} (h : piece.IsNext text)
    (hi : piece.kind ≠ some .illegal) : Spelled piece.kind piece.span := by
  by_cases hw : ∃ k, (piece.span, k) ∈ Kind.keywords
  · obtain ⟨k, hk⟩ := hw
    rw [h.keyword k hk]
    exact .keyword hk
  · obtain ⟨k, hk⟩ := h.declared hi
    rw [h.pattern (fun j hj ↦ hw ⟨j, hj⟩) k hk]
    exact declared_iff.mp hk

theorem Piece.IsNext.span_ne_nil {piece : Piece} {text : List Char} (h : piece.IsNext text) :
    piece.span ≠ [] := by
  by_cases hi : piece.kind = some .illegal
  · rw [← List.length_pos_iff, h.single hi]
    exact Nat.one_pos
  · exact (h.spelled hi).ne_nil

theorem Piece.IsNext.length_rest_lt {piece : Piece} {text : List Char} (h : piece.IsNext text) :
    piece.rest.length < text.length := by
  have hpos := List.length_pos_iff.mpr h.span_ne_nil
  rw [← h.split, List.length_append]
  omega

/-- There is one next piece. -/
theorem Piece.IsNext.unique {piece other : Piece} {text : List Char} (h : piece.IsNext text)
    (h' : other.IsNext text) : piece = other := by
  have hlength : piece.span.length = other.span.length := by
    by_cases hi : piece.kind = some .illegal
    · rw [h.single hi, h'.single (h'.illegal_iff.mpr (h.illegal_iff.mp hi))]
    · obtain ⟨k, hk⟩ := h.declared hi
      obtain ⟨j, hj⟩ := h'.declared fun hi' ↦ hi (h.illegal_iff.mpr (h'.illegal_iff.mp hi'))
      exact Nat.le_antisymm (h'.longest k _ hk ⟨_, h.split⟩) (h.longest j _ hj ⟨_, h'.split⟩)
  obtain ⟨hspan, hrest⟩ := List.append_inj (h.split.trans h'.split.symm) hlength
  have hkind : piece.kind = other.kind := by
    by_cases hi : piece.kind = some .illegal
    · rw [hi, h'.illegal_iff.mpr (h.illegal_iff.mp hi)]
    · by_cases hw : ∃ k, (piece.span, k) ∈ Kind.keywords
      · obtain ⟨k, hk⟩ := hw
        rw [h.keyword k hk, h'.keyword k (hspan ▸ hk)]
      · have hnone : ∀ j, (other.span, j) ∉ Kind.keywords := fun j hj ↦ hw ⟨j, hspan ▸ hj⟩
        exact (h'.pattern hnone _ (hspan ▸ declared_iff.mpr (h.spelled hi))).symm
  rcases piece with ⟨kind, span, rest⟩
  rcases other with ⟨kind', span', rest'⟩
  obtain rfl : kind = kind' := hkind
  obtain rfl : span = span' := hspan
  obtain rfl : rest = rest' := hrest
  rfl

/-! ### Runs -/

theorem length_le_takeWhile {p : Char → Bool} {v cs : List Char} (hv : ∀ d ∈ v, p d = true)
    (h : v <+: cs) : v.length ≤ (cs.takeWhile p).length := by
  obtain ⟨rest, rfl⟩ := h
  rw [List.takeWhile_append_of_pos hv, List.length_append]
  exact Nat.le_add_right _ _

/-- A run of a class ends where a character outside the class stands. -/
theorem takeWhile_of_isPrefix_cons {p : Char → Bool} {v u cs : List Char} {d : Char}
    (hv : ∀ e ∈ v, p e = true) (hd : p d = false) (h : v ++ d :: u <+: cs) :
    cs.takeWhile p = v ∧ ∃ rest, cs.dropWhile p = d :: rest ∧ u <+: rest := by
  obtain ⟨rest, rfl⟩ := h
  have hall : v.all p = true := List.all_eq_true.mpr hv
  have hhead : ∀ e ∈ (d :: (u ++ rest)).head?, p e = false := by simpa using hd
  obtain ⟨ht, hdr⟩ := takeWhile_append_of_head hall hhead
  rw [List.append_assoc, List.cons_append]
  exact ⟨ht, u ++ rest, hdr, List.prefix_append u rest⟩

theorem isNext_lineFeed (rest : List Char) :
    Piece.IsNext ⟨none, ['\n'], rest⟩ ('\n' :: rest) := by
  refine Piece.isNext_of_forms rfl .lineFeed ?_
  rintro k v - ⟨rfl, ⟨-, rfl⟩ | ⟨h, -⟩⟩
  · exact ⟨Nat.le_refl _, fun _ ↦ .inl rfl⟩
  · exact absurd h (by decide)

theorem isNext_spaces {c : Char} (hc : isSpace c = true) (cs : List Char) :
    (run none isSpace c cs).IsNext (c :: cs) := by
  have hsplit : (run none isSpace c cs).span ++ (run none isSpace c cs).rest = c :: cs := by
    simp [run]
  refine Piece.isNext_of_forms hsplit (.spaces hc fun d hd ↦ List.mem_takeWhile_imp hd) ?_
  intro k v hp hform
  rw [Start.of, if_pos (isBlank_of_isSpace hc)] at hform
  rcases hform with ⟨rfl, ⟨rfl, -⟩ | ⟨-, hv⟩⟩
  · exact absurd hc (by decide)
  · exact ⟨Nat.succ_le_succ (length_le_takeWhile hv hp), fun _ ↦ .inl rfl⟩

/-! ### Words and numbers -/

/-- A word is a keyword, or it is a name. -/
theorem ofWord_cases (w : List Char) :
    (w, Kind.ofWord w) ∈ Kind.keywords ∨
      Kind.ofWord w = .ident ∧ ∀ k, (w, k) ∉ Kind.keywords := by
  unfold Kind.ofWord
  cases hw : Kind.keywords.lookup w with
  | none =>
    refine .inr ⟨rfl, fun k hk ↦ ?_⟩
    simpa using List.lookup_eq_none_iff.mp hw _ hk
  | some k =>
    obtain ⟨before, after, hl, -⟩ := List.lookup_eq_some_iff.mp hw
    exact .inl (hl ▸ List.mem_append_right _ (List.mem_cons_self ..))

theorem ofWord_of_mem {w : List Char} {k : Kind} (h : (w, k) ∈ Kind.keywords) :
    Kind.ofWord w = k := by
  have hs : ∀ e ∈ Kind.keywords, Kind.ofWord e.1 = e.2 := by decide
  exact hs _ h

theorem isNext_word {c : Char} (hc : isWordStart c = true) (cs : List Char) :
    Piece.IsNext
      ⟨some (Kind.ofWord (c :: (wordTail cs).1)), c :: (wordTail cs).1, (wordTail cs).2⟩
      (c :: cs) := by
  refine Piece.isNext_of_forms (by simp [wordTail_append cs]) ?_ fun k v hp hform ↦ ?_
  · rcases ofWord_cases (c :: (wordTail cs).1) with hk | ⟨hk, -⟩
    · exact .keyword hk
    · simp only [hk]
      exact .name hc (wordTail_fst cs)
  · rw [Start.of_word hc] at hform
    refine ⟨Nat.succ_le_succ (wordTail_longest hform.1 hp), fun hv ↦ ?_⟩
    simp only at hv
    rcases hform with ⟨-, rfl | ⟨j, hj, rfl⟩⟩
    · rcases ofWord_cases (c :: (wordTail cs).1) with hk | ⟨hk, -⟩
      · exact .inr ⟨rfl, _, hk⟩
      · exact .inl (congrArg some hk)
    · exact .inl (congrArg some (ofWord_of_mem (hv ▸ hj)))

/-- The two ways to read a number. -/
theorem number_cases (c : Char) (cs : List Char) :
    (∃ d rest, cs.dropWhile isDigit = '.' :: d :: rest ∧ isDigit d = true ∧
      number c cs = ⟨some .float, c :: cs.takeWhile isDigit ++ '.' :: d :: rest.takeWhile isDigit,
        rest.dropWhile isDigit⟩) ∨
    (∀ d rest, cs.dropWhile isDigit = '.' :: d :: rest → isDigit d = false) ∧
      number c cs = ⟨some .int, c :: cs.takeWhile isDigit, cs.dropWhile isDigit⟩ := by
  unfold number
  split
  · next d rest hdrop =>
    cases hd : isDigit d with
    | true => exact .inl ⟨d, rest, hdrop, hd, by simp⟩
    | false =>
      refine .inr ⟨fun e rest' h ↦ ?_, by simp [hdrop]⟩
      obtain ⟨-, rfl, -⟩ : True ∧ d = e ∧ rest = rest' := by simpa [hdrop] using h
      exact hd
  · next hno => exact .inr ⟨fun d rest h ↦ absurd h (hno d rest), rfl⟩

theorem isNext_number {c : Char} (hc : isDigit c = true) (cs : List Char) :
    (number c cs).IsNext (c :: cs) := by
  have hpoint : isDigit '.' = false := by decide
  have hsplit := number_span_append_rest c cs
  have hdigits : ∀ ds : List Char, ∀ e ∈ ds.takeWhile isDigit, isDigit e = true :=
    fun _ _ he ↦ List.mem_takeWhile_imp he
  rcases number_cases c cs with ⟨d, rest, hdrop, hd, hn⟩ | ⟨hno, hn⟩
  · rw [hn] at hsplit ⊢
    refine Piece.isNext_of_forms hsplit (.float hc (hdigits cs) hd (hdigits rest)) ?_
    intro k v hp hform
    rw [Start.of_digit hc] at hform
    rcases hform with ⟨-, hv⟩ | ⟨rfl, as, e, es, rfl, has, -, hes⟩
    · have hle := length_le_takeWhile hv hp
      refine ⟨?_, fun h ↦ ?_⟩
      · simp only [List.length_cons, List.length_append]
        omega
      · obtain rfl : cs.takeWhile isDigit ++ '.' :: d :: rest.takeWhile isDigit = v := by
          simpa using h
        have hdot := hv '.' (by simp)
        rw [hpoint] at hdot
        contradiction
    · obtain ⟨htake, rest', hdrop', u, hu⟩ := takeWhile_of_isPrefix_cons has hpoint hp
      rw [hdrop, ← hu] at hdrop'
      obtain ⟨rfl, rfl⟩ : d = e ∧ rest = es ++ u := by simpa using hdrop'
      have hle := length_le_takeWhile hes (List.prefix_append es u)
      refine ⟨?_, fun _ ↦ .inl rfl⟩
      simp only [htake, List.length_cons, List.length_append]
      omega
  · rw [hn] at hsplit ⊢
    refine Piece.isNext_of_forms hsplit (.int hc (hdigits cs)) fun k v hp hform ↦ ?_
    rw [Start.of_digit hc] at hform
    rcases hform with ⟨rfl, hv⟩ | ⟨-, as, e, es, rfl, has, he, -⟩
    · exact ⟨Nat.succ_le_succ (length_le_takeWhile hv hp), fun _ ↦ .inl rfl⟩
    · obtain ⟨-, rest, hdrop, u, hu⟩ := takeWhile_of_isPrefix_cons has hpoint hp
      rw [← hu] at hdrop
      rw [hno e _ hdrop] at he
      contradiction

/-! ### Strings and comments -/

theorem Start.of_quote {q : Char} (hq : q = '"' ∨ q = '\'') : Start.of q = .quote := by
  rcases hq with rfl | rfl <;> decide

theorem ne_of_not_mem {q : Char} {v : List Char} (h : q ∉ v) :
    ∀ d ∈ v, decide (d ≠ q) = true := by
  intro d hd
  have hne : d ≠ q := by
    rintro rfl
    exact h hd
  simpa using hne

/-- The two ways to read a string. -/
theorem quoted_cases (q : Char) (cs : List Char) :
    (q ∉ cs ∧ quoted q cs = ⟨some .str, q :: cs, []⟩) ∨
    ∃ body rest, cs = body ++ q :: rest ∧ q ∉ body ∧
      quoted q cs = ⟨some .str, q :: body ++ [q], rest⟩ := by
  by_cases h : q ∈ cs
  · obtain ⟨body, rest, rfl, hb⟩ := List.eq_append_cons_of_mem h
    have hall : body.all (· ≠ q) = true := List.all_eq_true.mpr (ne_of_not_mem hb)
    have hhead : ∀ d ∈ (q :: rest).head?, decide (d ≠ q) = false := by simp
    obtain ⟨ht, hd⟩ := takeWhile_append_of_head hall hhead
    exact .inr ⟨body, rest, rfl, hb, by simp only [quoted, ht, hd]⟩
  · have hall : cs.all (· ≠ q) = true := List.all_eq_true.mpr (ne_of_not_mem h)
    have hhead : ∀ d ∈ ([] : List Char).head?, decide (d ≠ q) = false := by simp
    obtain ⟨ht, hd⟩ := takeWhile_append_of_head hall hhead
    rw [List.append_nil] at ht hd
    exact .inl ⟨h, by simp only [quoted, ht, hd]⟩

theorem isNext_quoted {q : Char} (hq : q = '"' ∨ q = '\'') (cs : List Char) :
    (quoted q cs).IsNext (q :: cs) := by
  have hsplit := quoted_span_append_rest q cs
  rcases quoted_cases q cs with ⟨hno, hn⟩ | ⟨body, rest, rfl, hb, hn⟩
  · rw [hn] at hsplit ⊢
    refine Piece.isNext_of_forms hsplit ?_ fun k v hp hform ↦ ?_
    · have h := Spelled.string hq hno (.inl rfl)
      rwa [List.append_nil] at h
    · rw [Start.of_quote hq] at hform
      exact ⟨Nat.succ_le_succ hp.length_le, fun _ ↦ .inl hform.1.symm⟩
  · rw [hn] at hsplit ⊢
    refine Piece.isNext_of_forms hsplit (.string hq hb (.inr rfl)) fun k v hp hform ↦ ?_
    rw [Start.of_quote hq] at hform
    obtain ⟨rfl, content, close, rfl, hc, hclose⟩ := hform
    refine ⟨?_, fun _ ↦ .inl rfl⟩
    -- The content ends before the next quote, so it is no longer than the body.
    have hle := length_le_takeWhile (ne_of_not_mem hc) ((List.prefix_append content close).trans hp)
    have htake : (body ++ q :: rest).takeWhile (· ≠ q) = body :=
      (takeWhile_of_isPrefix_cons (ne_of_not_mem hb) (by simp) List.prefix_rfl).1
    rw [htake] at hle
    have hone : close.length ≤ 1 := by rcases hclose with rfl | rfl <;> simp
    simp only [List.length_cons, List.length_append, List.length_nil]
    omega

theorem isNext_comment {c : Char} {cs : List Char}
    (hm : c = '#' ∨ c = '/' ∧ cs.head? = some '/') :
    (run (some .comment) (· ≠ '\n') c cs).IsNext (c :: cs) := by
  have hsplit : (run (some .comment) (· ≠ '\n') c cs).span ++
      (run (some .comment) (· ≠ '\n') c cs).rest = c :: cs := by
    simp only [run, List.cons_append, List.takeWhile_append_dropWhile]
  have hother : Start.of c = .other := by
    rcases hm with rfl | ⟨rfl, -⟩ <;> decide
  have hbody : ∀ ds : List Char, '\n' ∉ ds.takeWhile (· ≠ '\n') := by
    intro ds h
    simpa using List.mem_takeWhile_imp h
  have hsymbol : ∀ e ∈ Kind.symbols, e.1.head? ≠ some '#' ∧
      (e.1.head? = some '/' → e.1.tail = []) := by
    decide
  refine Piece.isNext_of_forms hsplit ?_ fun k v hp hform ↦ ?_
  · rcases hm with rfl | ⟨rfl, hhead⟩
    · exact .hash (hbody cs)
    · obtain ⟨ds, rfl⟩ := List.head?_eq_some_iff.mp hhead
      exact .slashes (hbody ds)
  · rw [hother] at hform
    rcases hform with ⟨rfl, hv⟩ | ⟨j, hj, rfl⟩
    · have hno : '\n' ∉ v := by
        rcases hv with ⟨-, hv⟩ | ⟨-, body, rfl, hb⟩
        · exact hv
        · simpa using hb
      exact ⟨Nat.succ_le_succ (length_le_takeWhile (ne_of_not_mem hno) hp), fun _ ↦ .inl rfl⟩
    · obtain ⟨hhash, hslash⟩ := hsymbol _ hj
      rcases hm with rfl | ⟨rfl, hhead⟩
      · exact absurd rfl hhash
      · obtain rfl : v = [] := hslash rfl
        obtain ⟨ds, rfl⟩ := List.head?_eq_some_iff.mp hhead
        exact ⟨by simp [run], fun h ↦ by simp [run] at h⟩

/-! ### Symbols -/

/-- The first symbol of the table that starts a text is the longest that does. -/
theorem length_le_of_find? {p : List Char × Kind → Bool} {e e' : List Char × Kind}
    (h : Kind.symbols.find? p = some e) (he : e' ∈ Kind.symbols) (hp : p e' = true) :
    e'.1.length ≤ e.1.length := by
  have hsorted : Kind.symbols.Pairwise fun e e' ↦ e'.1.length ≤ e.1.length := by decide
  obtain ⟨-, before, after, htable, hbefore⟩ := List.find?_eq_some_iff_append.mp h
  rw [htable] at he hsorted
  rcases List.mem_append.mp he with he | he
  · exact absurd hp (by simpa only [Bool.not_eq_true', Bool.not_eq_true] using hbefore e' he)
  · rcases List.mem_cons.mp he with rfl | he
    · exact Nat.le_refl _
    · exact List.rel_of_pairwise_cons (List.pairwise_append.mp hsorted).2.1 he

theorem symbols_unique {w : List Char} {k j : Kind} (hk : (w, k) ∈ Kind.symbols)
    (hj : (w, j) ∈ Kind.symbols) : k = j := by
  have h : some (w, k) = some (w, j) := by rw [← find?_symbols hk, ← find?_symbols hj]
  simpa using h

theorem isNext_symbol {c : Char} {cs : List Char} (hother : Start.of c = .other)
    (hm : ¬(c = '#' ∨ c = '/' ∧ cs.head? = some '/')) : (symbol c cs).IsNext (c :: cs) := by
  -- No comment starts here.
  have hforms : ∀ k v, v <+: cs → (Start.of c).Form k c v →
      ∃ j, (c :: v, j) ∈ Kind.symbols ∧ k = some j := by
    intro k v hp hform
    rw [hother] at hform
    rcases hform with ⟨-, ⟨rfl, -⟩ | ⟨rfl, body, rfl, -⟩⟩ | hform
    · exact absurd (.inl rfl) hm
    · obtain ⟨rest, rfl⟩ := hp
      exact absurd (.inr ⟨rfl, rfl⟩) hm
    · exact hform
  have hstarts : ∀ {v : List Char}, v <+: cs → (c :: v).isPrefixOf (c :: cs) = true := fun hp ↦
    List.isPrefixOf_iff_prefix.mpr (List.cons_prefix_cons.mpr ⟨rfl, hp⟩)
  have hsplit := symbol_span_append_rest c cs
  unfold symbol at hsplit ⊢
  split at hsplit
  · next w kind hfind =>
    refine Piece.isNext_of_forms hsplit (.symbol (List.mem_of_find?_eq_some hfind)) ?_
    intro k v hp hform
    obtain ⟨j, hj, rfl⟩ := hforms k v hp hform
    refine ⟨length_le_of_find? hfind hj (hstarts hp), fun hv ↦ .inl ?_⟩
    simp only at hv
    exact congrArg some (symbols_unique (List.mem_of_find?_eq_some hfind) (hv ▸ hj))
  · next hnone =>
    have hno : ∀ k w, Declared k w → ¬ w <+: c :: cs := by
      intro k w hw hp
      obtain ⟨v, rfl, hp, hform⟩ := (declared_iff.mp hw).exists_form hp
      obtain ⟨j, hj, -⟩ := hforms k v hp hform
      exact List.find?_eq_none.mp hnone _ hj (hstarts hp)
    have hone : [c] <+: c :: cs := List.prefix_append [c] cs
    refine ⟨rfl, fun k w hw hp ↦ absurd hp (hno k w hw), iff_of_true rfl fun k w hw _ ↦ hno k w hw,
      fun _ ↦ rfl, fun h ↦ absurd rfl h, fun k hk ↦ ?_, fun _ k hk ↦ absurd hone (hno k _ hk)⟩
    exact absurd hone (hno _ _ (declared_iff.mpr (.keyword hk)))

/-! ### Whole texts -/

/-- The scanner takes the next piece of every text that no blank starts. -/
theorem isNext_cut {c : Char} (hb : isBlank c = false) (cs : List Char) :
    (cut c cs).IsNext (c :: cs) := by
  unfold cut
  rw [if_neg (by simp [hb])]
  split
  · next hw => exact isNext_word hw cs
  next hw =>
  split
  · next hd => exact isNext_number hd cs
  next hd =>
  split
  · next hq => exact isNext_quoted (by simpa using hq) cs
  next hq =>
  split
  · next hm => exact isNext_comment (by simpa using hm)
  · next hm =>
    refine isNext_symbol ?_ (by simpa using hm)
    simp only [Start.of, hb, hw, hd, hq, Bool.false_eq_true, ↓reduceIte]

theorem tokensFrom_blanks {bs : List Char} (hbs : ∀ c ∈ bs, isBlank c = true) (p : Position)
    (rest : List Char) : tokensFrom p (bs ++ rest) = tokensFrom (p.after bs) rest := by
  induction bs generalizing p with
  | nil => rfl
  | cons c bs ih =>
    obtain ⟨hc, hbs⟩ := List.forall_mem_cons.mp hbs
    rw [List.cons_append, tokensFrom_blank p hc, ih hbs, Position.after_cons]

/-- The tokens of the text, which starts at the place `p`, when each piece of it is the next one and
blanks give none. -/
inductive Munches : Position → List Char → List Token → Prop
  | done (p : Position) : Munches p [] []
  | skip {p : Position} {span rest text : List Char} {ts : List Token}
      (h : Piece.IsNext ⟨none, span, rest⟩ text) (hts : Munches (p.after span) rest ts) :
      Munches p text ts
  | token {p : Position} {k : Kind} {span rest text : List Char} {ts : List Token}
      (h : Piece.IsNext ⟨some k, span, rest⟩ text) (hts : Munches (p.after span) rest ts) :
      Munches p text (⟨k, String.ofList (literal k span), p⟩ :: ts)

theorem Munches.unique {p : Position} {text : List Char} {ts ts' : List Token}
    (h : Munches p text ts) (h' : Munches p text ts') : ts = ts' := by
  induction h generalizing ts' with
  | done p =>
    cases h' with
    | done => rfl
    | skip h => exact absurd h.length_rest_lt (Nat.not_lt_zero _)
    | token h => exact absurd h.length_rest_lt (Nat.not_lt_zero _)
  | skip h _ ih =>
    cases h' with
    | done => exact absurd h.length_rest_lt (Nat.not_lt_zero _)
    | skip h' hts' =>
      obtain ⟨-, rfl, rfl⟩ := Piece.mk.inj (h.unique h')
      exact ih hts'
    | token h' => exact absurd (congrArg Piece.kind (h.unique h')) (by simp)
  | token h _ ih =>
    cases h' with
    | done => exact absurd h.length_rest_lt (Nat.not_lt_zero _)
    | skip h' => exact absurd (congrArg Piece.kind (h.unique h')) (by simp)
    | token h' hts' =>
      obtain ⟨hk, rfl, rfl⟩ := Piece.mk.inj (h.unique h')
      rw [Option.some.inj hk, ih hts']

theorem munches_tokensFrom (p : Position) (text : List Char) :
    Munches p text (tokensFrom p text) := by
  induction hn : text.length using Nat.strong_induction_on generalizing p text with
  | _ n ih =>
    subst hn
    cases text with
    | nil =>
      rw [tokensFrom_nil]
      exact .done p
    | cons c cs =>
      have hskip : ∀ span rest, Piece.IsNext ⟨none, span, rest⟩ (c :: cs) →
          (∀ d ∈ span, isBlank d = true) → Munches p (c :: cs) (tokensFrom p (c :: cs)) := by
        intro span rest h hspan
        have hrest := ih rest.length h.length_rest_lt (p.after span) rest rfl
        rw [← tokensFrom_blanks hspan p rest, h.split] at hrest
        exact .skip h hrest
      cases hb : isBlank c with
      | true =>
        by_cases hc : c = '\n'
        · subst hc
          exact hskip ['\n'] cs (isNext_lineFeed cs) (by simp [hb])
        · have hs : isSpace c = true := by
            simpa [isBlank, isSpace, hc] using hb
          refine hskip _ _ (isNext_spaces hs cs) ?_
          exact List.forall_mem_cons.mpr
            ⟨hb, fun d hd ↦ isBlank_of_isSpace (List.mem_takeWhile_imp hd)⟩
      | false =>
        have h := isNext_cut hb cs
        have hrest := ih _ h.length_rest_lt (p.after (cut c cs).span) _ rfl
        rw [tokensFrom]
        cases hk : (cut c cs).kind with
        | none => exact .skip (hk ▸ h) hrest
        | some k => exact .token (hk ▸ h) hrest

/-- The tokens of a source are those of its longest words, and of no other way to cut it up: from
the first character to the last, each piece is the longest word of the lexicon at its place, a
keyword if it is spelt as one, and one illegal character only where no word starts. -/
theorem eq_ofSource_iff_munches (source : String) (ts : List Token) :
    ts = Token.ofSource source ↔ Munches Position.start source.toList ts := by
  have hmunches := munches_tokensFrom Position.start source.toList
  constructor
  · rintro rfl
    exact hmunches
  · intro h
    exact h.unique hmunches

end Treewalk.Scanner
