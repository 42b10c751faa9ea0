import Mathlib.Computability.Language
import Treewalk.Proofs.Token.Lexeme

/-!
# The words of the language

The lexicon is a list of rules: comments, names, numbers, strings, blanks, and one rule for each
symbol and each keyword. A rule says which words it has, as a formal language, and which kind of
token they are; it does not say how to find them. `Declared k w` is the membership of a word in a
rule for the kind `k`, `Spelled` the same with one form for each sort of rule (`declared_iff`).

The first character of a word leaves little choice (`Start.Form`), since the rules overlap in a few
places only: a keyword is also spelt as a name, digits start both sorts of number, and a slash
starts a comment and a symbol.
-/

set_option autoImplicit false
set_option relaxedAutoImplicit false

namespace Treewalk.Scanner

open scoped Computability

/-! ### Patterns -/

/-- The blanks that stay on a line. -/
def isSpace (c : Char) : Bool :=
  c = ' ' || c = '\t' || c = '\r' || c = '\x0c'

/-- The words of one character from a class. -/
def one (p : Char → Bool) : Language Char :=
  {w | ∃ c, p c = true ∧ w = [c]}

/-- The words of one character or more, all from a class. -/
def many (p : Char → Bool) : Language Char :=
  one p * (one p)∗

/-- Comments: a mark and what follows it on the line. -/
def commentWords (mark : List Char) : Language Char :=
  {mark} * (one (· ≠ '\n'))∗

/-- Segments of names. -/
def segmentWords : Language Char :=
  one isWordStart * (one isWordPart)∗

/-- Names: segments with hyphens between them. -/
def nameWords : Language Char :=
  segmentWords * ({['-']} * segmentWords)∗

/-- Numbers with a point. -/
def pointWords : Language Char :=
  many isDigit * {['.']} * many isDigit

/-- Strings with their quotes. The closing one may be missing. -/
def stringWords (q : Char) : Language Char :=
  {[q]} * (one (· ≠ q))∗ * (1 + {[q]})

/-- Words and the kind of token that they are, or none for blanks. -/
structure Rule where
  kind : Option Kind
  words : Language Char

/-- One rule for each spelling of a table. -/
def spellings (table : List (List Char × Kind)) : List Rule :=
  table.map fun entry ↦ ⟨some entry.2, {entry.1}⟩

/-- All rules. -/
def lexicon : List Rule :=
  [⟨some .comment, commentWords ['#']⟩, ⟨some .comment, commentWords ['/', '/']⟩,
    ⟨some .ident, nameWords⟩, ⟨some .int, many isDigit⟩, ⟨some .float, pointWords⟩,
    ⟨some .str, stringWords '"'⟩, ⟨some .str, stringWords '\''⟩,
    ⟨none, {['\n']}⟩, ⟨none, many isSpace⟩] ++
  spellings Kind.symbols ++ spellings Kind.keywords

/-- The text `w` is a word of a rule for the kind `k`. -/
def Declared (k : Option Kind) (w : List Char) : Prop :=
  ∃ r ∈ lexicon, r.kind = k ∧ w ∈ r.words

theorem mem_word {v w : List Char} : w ∈ ({v} : Language Char) ↔ w = v :=
  Iff.rfl

theorem mem_star_one {p : Char → Bool} {w : List Char} :
    w ∈ (one p)∗ ↔ ∀ c ∈ w, p c = true := by
  rw [Language.mem_kstar]
  constructor
  · rintro ⟨ws, rfl, hws⟩ c hc
    obtain ⟨v, hv, hc⟩ := List.mem_flatten.mp hc
    obtain ⟨d, hd, rfl⟩ := hws v hv
    rw [List.mem_singleton.mp hc]
    exact hd
  · intro h
    refine ⟨w.map fun c ↦ [c], ?_, fun v hv ↦ ?_⟩
    · rw [← List.flatMap_def, List.flatMap_singleton']
    · obtain ⟨c, hc, rfl⟩ := List.mem_map.mp hv
      exact ⟨c, h c hc, rfl⟩

theorem mem_one_mul {p : Char → Bool} {l : Language Char} {w : List Char} :
    w ∈ one p * l ↔ ∃ c cs, w = c :: cs ∧ p c = true ∧ cs ∈ l := by
  rw [Language.mem_mul]
  constructor
  · rintro ⟨_, ⟨c, hc, rfl⟩, cs, hcs, rfl⟩
    exact ⟨c, cs, rfl, hc, hcs⟩
  · rintro ⟨c, cs, rfl, hc, hcs⟩
    exact ⟨[c], ⟨c, hc, rfl⟩, cs, hcs, rfl⟩

theorem mem_word_mul {v w : List Char} {l : Language Char} :
    w ∈ {v} * l ↔ ∃ cs ∈ l, w = v ++ cs := by
  rw [Language.mem_mul]
  constructor
  · rintro ⟨_, rfl, cs, hcs, rfl⟩
    exact ⟨cs, hcs, rfl⟩
  · rintro ⟨cs, hcs, rfl⟩
    exact ⟨v, rfl, cs, hcs, rfl⟩

theorem mem_many {p : Char → Bool} {w : List Char} :
    w ∈ many p ↔ ∃ c cs, w = c :: cs ∧ p c = true ∧ ∀ d ∈ cs, p d = true := by
  simp only [many, mem_one_mul, mem_star_one]

theorem mem_stringWords {q : Char} {w : List Char} :
    w ∈ stringWords q ↔
      ∃ body close, w = q :: body ++ close ∧ q ∉ body ∧ (close = [] ∨ close = [q]) := by
  rw [stringWords, mul_assoc, mem_word_mul]
  constructor
  · rintro ⟨cs, hcs, rfl⟩
    obtain ⟨body, hb, close, hc, rfl⟩ := Language.mem_mul.mp hcs
    refine ⟨body, close, by simp, fun hq ↦ ?_, ?_⟩
    · simpa using mem_star_one.mp hb q hq
    · rcases (Language.mem_add _ _ _).mp hc with hc | hc
      · exact .inl ((Language.mem_one _).mp hc)
      · exact .inr hc
  · rintro ⟨body, close, rfl, hq, hc⟩
    refine ⟨body ++ close, Language.mem_mul.mpr ⟨body, mem_star_one.mpr ?_, close, ?_, rfl⟩, rfl⟩
    · intro c hcb
      have hne : c ≠ q := by
        rintro rfl
        exact hq hcb
      simpa using hne
    · exact (Language.mem_add _ _ _).mpr (hc.imp (Language.mem_one _).mpr id)

/-! ### Names -/

theorem wordTail_append_parts {a : List Char} (ha : ∀ c ∈ a, isWordPart c = true)
    (rest : List Char) : wordTail (a ++ rest) = (a ++ (wordTail rest).1, (wordTail rest).2) := by
  induction a with
  | nil => rfl
  | cons c a ih =>
    obtain ⟨hc, ha⟩ := List.forall_mem_cons.mp ha
    rw [List.cons_append]
    cases h : a ++ rest with
    | nil =>
      obtain ⟨rfl, rfl⟩ := List.append_eq_nil_iff.mp h
      simp [wordTail, hc]
    | cons d ds =>
      have ih := ih ha
      rw [h] at ih
      simp [wordTail, hc, ih]

theorem mem_segmentWords {w : List Char} :
    w ∈ segmentWords ↔
      ∃ c cs, w = c :: cs ∧ isWordStart c = true ∧ ∀ d ∈ cs, isWordPart d = true := by
  simp only [segmentWords, mem_one_mul, mem_star_one]

theorem wordTail_hyphen {c : Char} (hc : isWordStart c = true) (rest : List Char) :
    wordTail ('-' :: c :: rest) = ('-' :: c :: (wordTail rest).1, (wordTail rest).2) := by
  have hpart : isWordPart '-' = false := by decide
  simp [wordTail, hpart, hc]

theorem wordTail_segments {ws : List (List Char)} (h : ∀ w ∈ ws, w ∈ {['-']} * segmentWords) :
    wordTail ws.flatten = (ws.flatten, []) := by
  induction ws with
  | nil => rfl
  | cons w ws ih =>
    obtain ⟨hw, hws⟩ := List.forall_mem_cons.mp h
    obtain ⟨v, hv, rfl⟩ := mem_word_mul.mp hw
    obtain ⟨c, cs, rfl, hc, hcs⟩ := mem_segmentWords.mp hv
    have hrest := wordTail_append_parts hcs ws.flatten
    rw [ih hws] at hrest
    simp [wordTail_hyphen hc, hrest]

/-- What may follow the first character of a name. -/
theorem mem_tail_iff {w : List Char} :
    w ∈ (one isWordPart)∗ * ({['-']} * segmentWords)∗ ↔ wordTail w = (w, []) := by
  constructor
  · intro h
    obtain ⟨a, ha, b, hb, rfl⟩ := Language.mem_mul.mp h
    obtain ⟨ws, rfl, hws⟩ := Language.mem_kstar.mp hb
    rw [wordTail_append_parts (mem_star_one.mp ha), wordTail_segments hws]
  · intro h
    have hnil : [] ∈ ({['-']} * segmentWords)∗ := Language.nil_mem_kstar _
    fun_induction wordTail w with
    | case1 => exact Language.mem_mul.mpr ⟨[], Language.nil_mem_kstar _, [], hnil, rfl⟩
    | case2 c hc =>
      exact Language.mem_mul.mpr ⟨[c], mem_star_one.mpr (by simpa using hc), [], hnil, rfl⟩
    | case3 => simp at h
    | case4 c d cs hc w rest hw ih =>
      obtain ⟨rfl, rfl⟩ : w = d :: cs ∧ rest = [] := by simpa using h
      obtain ⟨a, ha, b, hb, hab⟩ := Language.mem_mul.mp (ih hw)
      refine Language.mem_mul.mpr ⟨c :: a, mem_star_one.mpr ?_, b, hb, by simp [hab]⟩
      exact List.forall_mem_cons.mpr ⟨hc, mem_star_one.mp ha⟩
    | case5 c d cs hc hd w rest hw ih =>
      obtain ⟨rfl, rfl⟩ : w = cs ∧ rest = [] := by simpa using h
      obtain ⟨rfl, hd⟩ : c = '-' ∧ isWordStart d = true := by simpa using hd
      obtain ⟨a, ha, b, hb, hab⟩ := Language.mem_mul.mp (ih hw)
      obtain ⟨ws, rfl, hws⟩ := Language.mem_kstar.mp hb
      have hnew : '-' :: d :: a ∈ ({['-']} * segmentWords : Language Char) :=
        mem_word_mul.mpr ⟨d :: a, mem_segmentWords.mpr ⟨d, a, rfl, hd, mem_star_one.mp ha⟩, rfl⟩
      refine Language.mem_mul.mpr ⟨[], Language.nil_mem_kstar _, '-' :: d :: w, ?_, rfl⟩
      refine Language.mem_kstar.mpr ⟨('-' :: d :: a) :: ws, by simp [hab], ?_⟩
      exact List.forall_mem_cons.mpr ⟨hnew, hws⟩
    | case6 => simp at h

theorem wordTail_fst (cs : List Char) : wordTail (wordTail cs).1 = ((wordTail cs).1, []) := by
  fun_induction wordTail cs with
  | case1 => rfl
  | case2 c hc => simp [wordTail, hc]
  | case3 => rfl
  | case4 c d cs hc w rest hw ih =>
    have h := wordTail_append_parts (a := [c]) (by simpa using hc) w
    rw [hw] at ih
    rwa [ih] at h
  | case5 c d cs hc hd w rest hw ih =>
    obtain ⟨rfl, hd⟩ : c = '-' ∧ isWordStart d = true := by simpa using hd
    rw [hw] at ih
    rw [wordTail_hyphen hd, ih]
  | case6 => rfl

/-- A name that stands before other characters goes no further than the longest one there. -/
theorem wordTail_longest {w cs : List Char} (hw : wordTail w = (w, [])) (h : w <+: cs) :
    w.length ≤ (wordTail cs).1.length := by
  obtain ⟨rest, rfl⟩ := h
  fun_induction wordTail w with
  | case1 => simp
  | case2 c hc => cases rest <;> simp [wordTail, hc]
  | case3 => simp at hw
  | case4 c d cs hc w r hwr ih =>
    obtain ⟨rfl, rfl⟩ : w = d :: cs ∧ r = [] := by simpa using hw
    have ih := ih hwr
    rw [List.cons_append] at ih
    simpa [wordTail, hc] using ih
  | case5 c d cs hc hd w r hwr ih =>
    obtain ⟨rfl, rfl⟩ : w = cs ∧ r = [] := by simpa using hw
    simpa [wordTail, hc, hd] using ih hwr
  | case6 => simp at hw

/-! ### Words of the lexicon -/

/-- The words of the lexicon, one form for each sort of rule. -/
inductive Spelled : Option Kind → List Char → Prop
  | hash {body : List Char} (hb : '\n' ∉ body) : Spelled (some .comment) ('#' :: body)
  | slashes {body : List Char} (hb : '\n' ∉ body) : Spelled (some .comment) ('/' :: '/' :: body)
  | name {c : Char} {cs : List Char} (hc : isWordStart c = true) (hcs : wordTail cs = (cs, [])) :
      Spelled (some .ident) (c :: cs)
  | int {c : Char} {cs : List Char} (hc : isDigit c = true) (hcs : ∀ d ∈ cs, isDigit d = true) :
      Spelled (some .int) (c :: cs)
  | float {c d : Char} {cs ds : List Char} (hc : isDigit c = true)
      (hcs : ∀ e ∈ cs, isDigit e = true) (hd : isDigit d = true)
      (hds : ∀ e ∈ ds, isDigit e = true) : Spelled (some .float) (c :: cs ++ '.' :: d :: ds)
  | string {q : Char} {body close : List Char} (hq : q = '"' ∨ q = '\'') (hb : q ∉ body)
      (hc : close = [] ∨ close = [q]) : Spelled (some .str) (q :: body ++ close)
  | lineFeed : Spelled none ['\n']
  | spaces {c : Char} {cs : List Char} (hc : isSpace c = true) (hcs : ∀ d ∈ cs, isSpace d = true) :
      Spelled none (c :: cs)
  | symbol {w : List Char} {k : Kind} (h : (w, k) ∈ Kind.symbols) : Spelled (some k) w
  | keyword {w : List Char} {k : Kind} (h : (w, k) ∈ Kind.keywords) : Spelled (some k) w

theorem mem_commentWords {mark w : List Char} :
    w ∈ commentWords mark ↔ ∃ body, '\n' ∉ body ∧ w = mark ++ body := by
  rw [commentWords, mem_word_mul]
  refine exists_congr fun body ↦ and_congr_left fun _ ↦ ?_
  rw [mem_star_one]
  constructor
  · intro h hn
    simpa using h _ hn
  · intro h c hc
    have hne : c ≠ '\n' := by
      rintro rfl
      exact h hc
    simpa using hne

theorem mem_nameWords {w : List Char} :
    w ∈ nameWords ↔
      ∃ c cs, w = c :: cs ∧ isWordStart c = true ∧ wordTail cs = (cs, []) := by
  rw [nameWords]
  nth_rewrite 1 [segmentWords]
  rw [mul_assoc, mem_one_mul]
  simp only [mem_tail_iff]

theorem mem_pointWords {w : List Char} :
    w ∈ pointWords ↔
      ∃ c cs d ds, w = c :: cs ++ '.' :: d :: ds ∧
        (isDigit c = true ∧ ∀ e ∈ cs, isDigit e = true) ∧
        isDigit d = true ∧ ∀ e ∈ ds, isDigit e = true := by
  rw [pointWords, mul_assoc, Language.mem_mul]
  constructor
  · rintro ⟨a, ha, b, hb, rfl⟩
    obtain ⟨c, cs, rfl, hc⟩ := mem_many.mp ha
    obtain ⟨v, hv, rfl⟩ := mem_word_mul.mp hb
    obtain ⟨d, ds, rfl, hd⟩ := mem_many.mp hv
    exact ⟨c, cs, d, ds, rfl, hc, hd⟩
  · rintro ⟨c, cs, d, ds, rfl, hc, hd⟩
    exact ⟨c :: cs, mem_many.mpr ⟨c, cs, rfl, hc⟩, '.' :: d :: ds,
      mem_word_mul.mpr ⟨d :: ds, mem_many.mpr ⟨d, ds, rfl, hd⟩, rfl⟩, rfl⟩

theorem mem_spellings {table : List (List Char × Kind)} {r : Rule} :
    r ∈ spellings table ↔ ∃ w k, (w, k) ∈ table ∧ r = ⟨some k, {w}⟩ := by
  simp [spellings, eq_comm]

theorem declared_iff {k : Option Kind} {w : List Char} : Declared k w ↔ Spelled k w := by
  constructor
  · rintro ⟨r, hr, rfl, hw⟩
    simp only [lexicon, List.mem_append, List.mem_cons, List.not_mem_nil, or_false,
      mem_spellings] at hr
    rcases hr with (((rfl | rfl | rfl | rfl | rfl | rfl | rfl | rfl | rfl) | ⟨v, j, hv, rfl⟩) |
      ⟨v, j, hv, rfl⟩)
    · obtain ⟨body, hb, rfl⟩ := mem_commentWords.mp hw
      exact .hash hb
    · obtain ⟨body, hb, rfl⟩ := mem_commentWords.mp hw
      exact .slashes hb
    · obtain ⟨c, cs, rfl, hc, hcs⟩ := mem_nameWords.mp hw
      exact .name hc hcs
    · obtain ⟨c, cs, rfl, hc, hcs⟩ := mem_many.mp hw
      exact .int hc hcs
    · obtain ⟨c, cs, d, ds, rfl, ⟨hc, hcs⟩, hd, hds⟩ := mem_pointWords.mp hw
      exact .float hc hcs hd hds
    · obtain ⟨body, close, rfl, hb, hc⟩ := mem_stringWords.mp hw
      exact .string (.inl rfl) hb hc
    · obtain ⟨body, close, rfl, hb, hc⟩ := mem_stringWords.mp hw
      exact .string (.inr rfl) hb hc
    · obtain rfl := mem_word.mp hw
      exact .lineFeed
    · obtain ⟨c, cs, rfl, hc, hcs⟩ := mem_many.mp hw
      exact .spaces hc hcs
    · obtain rfl := mem_word.mp hw
      exact .symbol hv
    · obtain rfl := mem_word.mp hw
      exact .keyword hv
  · have hrule : ∀ j words, ⟨j, words⟩ ∈ lexicon → w ∈ words → Declared j w :=
      fun j words hr hw ↦ ⟨_, hr, rfl, hw⟩
    intro h
    cases h with
    | hash hb =>
      exact hrule _ (commentWords ['#']) (by simp [lexicon]) (mem_commentWords.mpr ⟨_, hb, rfl⟩)
    | slashes hb =>
      refine hrule _ (commentWords ['/', '/']) (by simp [lexicon]) ?_
      exact mem_commentWords.mpr ⟨_, hb, rfl⟩
    | name hc hcs =>
      exact hrule _ nameWords (by simp [lexicon]) (mem_nameWords.mpr ⟨_, _, rfl, hc, hcs⟩)
    | int hc hcs =>
      exact hrule _ (many isDigit) (by simp [lexicon]) (mem_many.mpr ⟨_, _, rfl, hc, hcs⟩)
    | float hc hcs hd hds =>
      refine hrule _ pointWords (by simp [lexicon]) ?_
      exact mem_pointWords.mpr ⟨_, _, _, _, rfl, ⟨hc, hcs⟩, hd, hds⟩
    | @string q body close hq hb hc =>
      refine hrule _ (stringWords q) ?_ (mem_stringWords.mpr ⟨body, close, rfl, hb, hc⟩)
      rcases hq with rfl | rfl <;> simp [lexicon]
    | lineFeed => exact hrule _ {['\n']} (by simp [lexicon]) rfl
    | spaces hc hcs =>
      exact hrule _ (many isSpace) (by simp [lexicon]) (mem_many.mpr ⟨_, _, rfl, hc, hcs⟩)
    | symbol h =>
      refine hrule _ {w} (List.mem_append_left _ (List.mem_append_right _ ?_)) rfl
      exact mem_spellings.mpr ⟨_, _, h, rfl⟩
    | keyword h =>
      exact hrule _ {w} (List.mem_append_right _ (mem_spellings.mpr ⟨_, _, h, rfl⟩)) rfl

/-! ### First characters -/

/-- The sorts of character by which the scanner tells what starts a piece. -/
inductive Start where
  | blank
  | word
  | digit
  | quote
  | other
deriving DecidableEq

/-- The sort of a character. -/
def Start.of (c : Char) : Start :=
  if isBlank c then .blank
  else if isWordStart c then .word
  else if isDigit c then .digit
  else if c = '"' || c = '\'' then .quote
  else .other

theorem Start.of_word {c : Char} (h : isWordStart c = true) : Start.of c = .word := by
  have hb : isBlank c = false := by
    cases hb : isBlank c with
    | false => rfl
    | true => simp [isWordStart_of_isBlank hb] at h
  simp [Start.of, hb, h]

theorem Start.of_digit {c : Char} (h : isDigit c = true) : Start.of c = .digit := by
  simp [Start.of, isBlank_of_isDigit h, isWordStart_of_isDigit h, h]

theorem isBlank_of_isSpace {c : Char} (h : isSpace c = true) : isBlank c = true := by
  simp only [isSpace, isBlank, Bool.or_eq_true] at h ⊢
  exact .inl h

/-- What a word that starts with `c` and goes on with `cs` can be, by the sort of `c`. -/
def Start.Form (k : Option Kind) (c : Char) (cs : List Char) : Start → Prop
  | .blank => k = none ∧ (c = '\n' ∧ cs = [] ∨ isSpace c = true ∧ ∀ d ∈ cs, isSpace d = true)
  | .word => wordTail cs = (cs, []) ∧
      (k = some .ident ∨ ∃ j, (c :: cs, j) ∈ Kind.keywords ∧ k = some j)
  | .digit => k = some .int ∧ (∀ d ∈ cs, isDigit d = true) ∨
      k = some .float ∧ ∃ as d ds, cs = as ++ '.' :: d :: ds ∧ (∀ e ∈ as, isDigit e = true) ∧
        isDigit d = true ∧ ∀ e ∈ ds, isDigit e = true
  | .quote => k = some .str ∧ ∃ body close, cs = body ++ close ∧ c ∉ body ∧
      (close = [] ∨ close = [c])
  | .other => k = some .comment ∧ (c = '#' ∧ '\n' ∉ cs ∨
        c = '/' ∧ ∃ body, cs = '/' :: body ∧ '\n' ∉ body) ∨
      ∃ j, (c :: cs, j) ∈ Kind.symbols ∧ k = some j

theorem Spelled.form {k : Option Kind} {w : List Char} (h : Spelled k w) :
    ∃ c cs, w = c :: cs ∧ (Start.of c).Form k c cs := by
  have hsymbol : ∀ e ∈ Kind.symbols, ∃ c cs, e.1 = c :: cs ∧ Start.of c = .other := by
    intro e he
    have hs : ∀ e ∈ Kind.symbols, e.1.head?.map Start.of = some .other := by decide
    obtain ⟨c, hc, ho⟩ := Option.map_eq_some_iff.mp (hs e he)
    obtain ⟨cs, hcs⟩ := List.head?_eq_some_iff.mp hc
    exact ⟨c, cs, hcs, ho⟩
  have hkeyword : ∀ e ∈ Kind.keywords, ∃ c cs, e.1 = c :: cs ∧ Start.of c = .word ∧
      wordTail cs = (cs, []) := by
    intro e he
    have hs : ∀ e ∈ Kind.keywords, e.1.head?.map Start.of = some .word := by decide
    have ht : ∀ e ∈ Kind.keywords, wordTail e.1.tail = (e.1.tail, []) := by decide
    obtain ⟨c, hc, ho⟩ := Option.map_eq_some_iff.mp (hs e he)
    obtain ⟨cs, hcs⟩ := List.head?_eq_some_iff.mp hc
    have ht := ht e he
    rw [hcs] at ht
    exact ⟨c, cs, hcs, ho, ht⟩
  cases h with
  | hash hb => exact ⟨_, _, rfl, .inl ⟨rfl, .inl ⟨rfl, hb⟩⟩⟩
  | slashes hb => exact ⟨_, _, rfl, .inl ⟨rfl, .inr ⟨rfl, _, rfl, hb⟩⟩⟩
  | name hc hcs =>
    refine ⟨_, _, rfl, ?_⟩
    rw [Start.of_word hc]
    exact ⟨hcs, .inl rfl⟩
  | int hc hcs =>
    refine ⟨_, _, rfl, ?_⟩
    rw [Start.of_digit hc]
    exact .inl ⟨rfl, hcs⟩
  | float hc hcs hd hds =>
    refine ⟨_, _, rfl, ?_⟩
    rw [Start.of_digit hc]
    exact .inr ⟨rfl, _, _, _, rfl, hcs, hd, hds⟩
  | string hq hb hc =>
    refine ⟨_, _, rfl, ?_⟩
    rcases hq with rfl | rfl
    · exact ⟨rfl, _, _, rfl, hb, hc⟩
    · exact ⟨rfl, _, _, rfl, hb, hc⟩
  | lineFeed => exact ⟨_, _, rfl, rfl, .inl ⟨rfl, rfl⟩⟩
  | spaces hc hcs =>
    refine ⟨_, _, rfl, ?_⟩
    rw [Start.of, if_pos (isBlank_of_isSpace hc)]
    exact ⟨rfl, .inr ⟨hc, hcs⟩⟩
  | symbol h =>
    obtain ⟨c, cs, rfl, hc⟩ := hsymbol _ h
    refine ⟨c, cs, rfl, ?_⟩
    rw [hc]
    exact .inr ⟨_, h, rfl⟩
  | keyword h =>
    obtain ⟨c, cs, rfl, hc, hcs⟩ := hkeyword _ h
    refine ⟨c, cs, rfl, ?_⟩
    rw [hc]
    exact ⟨hcs, .inr ⟨_, h, rfl⟩⟩

theorem Spelled.ne_nil {k : Option Kind} {w : List Char} (h : Spelled k w) : w ≠ [] := by
  obtain ⟨c, cs, rfl, -⟩ := h.form
  exact List.cons_ne_nil c cs

/-- A word with which the text starts. -/
theorem Spelled.exists_form {k : Option Kind} {w cs : List Char} {c : Char} (h : Spelled k w)
    (hw : w <+: c :: cs) : ∃ v, w = c :: v ∧ v <+: cs ∧ (Start.of c).Form k c v := by
  obtain ⟨d, v, rfl, hform⟩ := h.form
  obtain ⟨rfl, hv⟩ := List.cons_prefix_cons.mp hw
  exact ⟨v, rfl, hv, hform⟩

/-- No rule has words of the kinds `illegal` and `eof`. -/
theorem Spelled.kind_ne {k : Option Kind} {w : List Char} (h : Spelled k w) :
    k ≠ some .illegal ∧ k ≠ some .eof := by
  have hs : ∀ e ∈ Kind.symbols ++ Kind.keywords, some e.2 ≠ some Kind.illegal ∧
      some e.2 ≠ some Kind.eof := by
    decide
  cases h with
  | symbol h => exact hs _ (List.mem_append_left _ h)
  | keyword h => exact hs _ (List.mem_append_right _ h)
  | _ => simp

end Treewalk.Scanner
