import Treewalk.Proofs.Token.LongestMatch

/-!
# Texts of number tokens

A token of the kind `int` has a text of digits, and one of the kind `float` has digits, a point and
digits, because the lexicon has no other words for these kinds. So the number readers accept the
texts of such tokens: an integer is read as what its digits denote (`Token.readInt?_literal`), and a
float is always read (`Token.exists_readFloat?_literal`).
-/

set_option autoImplicit false
set_option relaxedAutoImplicit false

namespace Treewalk

/-- The text of a token that is no string and not illegal is a word of the lexicon. -/
theorem Scanner.Munches.spelled {p : Position} {text : List Char} {ts : List Token}
    (h : Munches p text ts) {t : Token} (ht : t ∈ ts) (hs : t.kind ≠ .str)
    (hi : t.kind ≠ .illegal) : Spelled (some t.kind) t.literal.toList := by
  induction h with
  | done => cases ht
  | skip _ _ ih => exact ih ht
  | token hnext _ ih =>
    rcases List.mem_cons.mp ht with rfl | ht
    · rw [String.toList_ofList, literal_of_ne hs]
      exact hnext.spelled (by simpa using hi)
    · exact ih ht

theorem Token.spelled_literal {source : String} {t : Token} (ht : t ∈ Token.ofSource source)
    (hs : t.kind ≠ .str) (hi : t.kind ≠ .illegal) :
    Scanner.Spelled (some t.kind) t.literal.toList :=
  (Scanner.munches_tokensFrom Position.start source.toList).spelled ht hs hi

/-- Symbols and reserved words are no numbers. -/
theorem Scanner.not_number {w : List Char} {k : Kind}
    (h : (w, k) ∈ Kind.symbols ++ Kind.keywords) : k ≠ .int ∧ k ≠ .float := by
  have hs : ∀ e ∈ Kind.symbols ++ Kind.keywords, e.2 ≠ .int ∧ e.2 ≠ .float := by decide
  exact hs _ h

/-- An integer is spelt with digits. -/
theorem Scanner.Spelled.all_isDigit {w : List Char} (h : Spelled (some .int) w) :
    w ≠ [] ∧ w.all Decimal.isDigit = true := by
  cases h with
  | int hc hcs =>
    exact ⟨List.cons_ne_nil _ _, List.all_eq_true.mpr (List.forall_mem_cons.mpr ⟨hc, hcs⟩)⟩
  | symbol h => exact absurd rfl (not_number (List.mem_append_left _ h)).1
  | keyword h => exact absurd rfl (not_number (List.mem_append_right _ h)).1

/-- A float is spelt with digits on both sides of a point. -/
theorem Scanner.Spelled.exists_point {w : List Char} (h : Spelled (some .float) w) :
    ∃ c cs fraction, w = c :: cs ++ '.' :: fraction ∧ Decimal.isDigit c = true ∧
      cs.all Decimal.isDigit = true ∧ fraction.all Decimal.isDigit = true := by
  cases h with
  | @float c d cs ds hc hcs hd hds =>
    exact ⟨c, cs, d :: ds, rfl, hc, List.all_eq_true.mpr hcs,
      List.all_eq_true.mpr (List.forall_mem_cons.mpr ⟨hd, hds⟩)⟩
  | symbol h => exact absurd rfl (not_number (List.mem_append_left _ h)).2
  | keyword h => exact absurd rfl (not_number (List.mem_append_right _ h)).2

namespace Decimal

/-- Digits are read as the number that they denote. -/
theorem readInt?_of_isDigit {ds : List Char} (hne : ds ≠ []) (h : ds.all isDigit = true) :
    readInt? ds = some (digitsValue ds : Int) := by
  rw [readInt?, takeSign_of_isDigit h]
  simp [readNat?, hne, h]

/-- Digits, a point and digits are read as a float. -/
theorem exists_readUnsigned? {whole fraction : List Char} (hne : whole ≠ [])
    (hwhole : whole.all isDigit = true) (hfraction : fraction.all isDigit = true) :
    ∃ x, readUnsigned? (whole ++ '.' :: fraction) = some x := by
  have hhead : ∀ d ∈ ('.' :: fraction).head?, isDigit d = false := by
    simp [isDigit]
  obtain ⟨htake, hdrop⟩ := Scanner.takeWhile_append_of_head hwhole hhead
  have hrest := List.dropWhile_eq_nil_iff.mpr (List.all_eq_true.mp hfraction)
  simp only [readUnsigned?, htake, hdrop, hrest, hne, false_and, ↓reduceIte, readExponent?,
    Option.map_some]
  exact ⟨_, rfl⟩

/-- A text that starts with a digit has no sign, and no name of a float is meant. -/
theorem exists_readFloat? {c : Char} {cs fraction : List Char} (hc : isDigit c = true)
    (hcs : cs.all isDigit = true) (hfraction : fraction.all isDigit = true) :
    ∃ x, readFloat? (c :: cs ++ '.' :: fraction) = some x := by
  have hsign : takeSign (c :: cs ++ '.' :: fraction) = (false, c :: cs ++ '.' :: fraction) := by
    unfold takeSign
    split
    · next h => simp_all [isDigit]
    · next h => simp_all [isDigit]
    · rfl
  obtain ⟨x, hx⟩ := exists_readUnsigned? (List.cons_ne_nil c cs) (by simp [hc, hcs]) hfraction
  simp only [readFloat?, hsign, hx]
  cases named? (c :: cs ++ '.' :: fraction) with
  | none => exact ⟨_, rfl⟩
  | some y => exact ⟨_, rfl⟩

end Decimal

/-- The text of an integer token is read as the number that its digits denote. -/
theorem Token.readInt?_literal {source : String} {t : Token} (ht : t ∈ Token.ofSource source)
    (hk : t.kind = .int) :
    Decimal.readInt? t.literal.toList = some (Decimal.digitsValue t.literal.toList : Int) := by
  have hword := Token.spelled_literal ht (by simp [hk]) (by simp [hk])
  rw [hk] at hword
  obtain ⟨hne, hdigits⟩ := hword.all_isDigit
  exact Decimal.readInt?_of_isDigit hne hdigits

/-- The text of a float token is read. -/
theorem Token.exists_readFloat?_literal {source : String} {t : Token}
    (ht : t ∈ Token.ofSource source) (hk : t.kind = .float) :
    ∃ x, Decimal.readFloat? t.literal.toList = some x := by
  have hword := Token.spelled_literal ht (by simp [hk]) (by simp [hk])
  rw [hk] at hword
  obtain ⟨c, cs, fraction, hliteral, hc, hcs, hfraction⟩ := hword.exists_point
  rw [hliteral]
  exact Decimal.exists_readFloat? hc hcs hfraction

end Treewalk
